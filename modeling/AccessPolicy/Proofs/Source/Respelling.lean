import AccessPolicy.Proofs.Source.Printing
import AccessPolicy.Proofs.Source.Wildcard

/-!
# Spelling tokens out again

The tokens of a text say enough to write them down anew : a number in decimal, a string between
quotes, anything else as its value (`Token.spelling`). With a blank between neighbours the new text
has nothing in it that cannot be read, and its tokens say the same (`tokenize_respelled`), whatever
was passed over in the first text.

A keyword is spelled as it is valued, and classified again as what it was
(`Token.classify_classify`). A `*` is spelled the same whichever way it was read, so it needs the
token before it to be read that way again : `Spells.respelled` carries `StarsFit` along.
-/

namespace AccessPolicy

open TokenStream (Spells)

/-- The token in writing : a string between quotes, and the value of anything else. -/
def Token.spelling (t : Token) : String :=
  if t.kind = .string then "\"" ++ t.value.written ++ "\"" else t.value.written

theorem Token.spelling_of_ne {t : Token} (h : t.kind ≠ .string) : t.spelling = t.value.written :=
  if_neg h

/-- Tokens in writing, a blank between neighbours. -/
def respelled (ts : List Token) : String :=
  " ".intercalate (ts.map Token.spelling)

/-! ## Words -/

namespace Token

/-- What a word is classified as has the same class. -/
theorem classify_classify (w : String) : classify (classify w).2 = classify w := by
  rcases classify_cases w with ⟨k, -, h⟩ | ⟨k, hk, h⟩ | h
  · rw [h, h]
  · rw [h]
    rcases attributeKeyword?_cases hk with ⟨hw, rfl⟩ | ⟨hw, rfl⟩ | ⟨hw, rfl⟩ <;> rw [hw] <;> decide
  · rw [h, h]

theorem isWord_classify {w : String} (h : Lexeme.isWord w = true) :
    Lexeme.isWord (classify w).2 = true := by
  rcases classify_cases w with ⟨k, -, hclass⟩ | ⟨k, hk, hclass⟩ | hclass
  · rwa [hclass]
  · rw [hclass]
    rcases attributeKeyword?_cases hk with ⟨hw, rfl⟩ | ⟨hw, rfl⟩ | ⟨hw, rfl⟩ <;> rw [hw] <;> decide
  · rwa [hclass]

theorem classify_ne_string (w : String) : (classify w).1 ≠ .string := by
  rcases classify_cases w with ⟨k, hk, h⟩ | ⟨k, hk, h⟩ | h
  · rw [h]
    unfold structuralKeyword? at hk
    split at hk <;> cases hk <;> simp
  · rw [h]
    rcases attributeKeyword?_cases hk with ⟨-, rfl⟩ | ⟨-, rfl⟩ | ⟨-, rfl⟩ <;> simp
  · simp [h]

theorem kind_ofSymbol_ne_string (lookback : Option Kind) (s : Symbol) :
    (ofSymbol (Lexeme.starKind lookback) s).1 ≠ .string := by
  cases s
  case star =>
    rcases Lexeme.starKind_cases lookback with h | h
    · simp [ofSymbol, Symbol.kind?, h]
    · simp [ofSymbol, Symbol.kind?, h]
  all_goals exact Kind.noConfusion

end Token

/-! ## Tokens -/

namespace TokenStream.Spells

variable {star : Token.Kind} {rest : List Char} {ws : List Token.Content}

theorem wordEnds_of_blank (hrest : ∀ c ∈ rest.head?, c = ' ') : WordEnds rest := by
  intro c hc
  rw [hrest c hc]
  rfl

/-- A token is read again before a blank or the end, a `*` if the token before it asks for its
kind. -/
theorem spelling {t : Token} (ht : Token.Lexed t.content) (hstar : t.IsStar → t.kind = star)
    (hrest : ∀ c ∈ rest.head?, c = ' ') (h : Spells (Lexeme.starKind (some t.kind)) rest ws) :
    Spells star (t.spelling.toList ++ rest) (t.content :: ws) := by
  obtain ⟨kind, value, line, column⟩ := t
  simp only [Token.content] at ht ⊢
  generalize hc : (kind, value) = c at ht
  cases ht with
  | @word w hw =>
    obtain ⟨rfl, rfl⟩ := Prod.mk.inj hc
    rw [starKind_classify] at h
    have hagain : Spells star _ _ := word (Token.isWord_classify hw) (wordEnds_of_blank hrest) h
    rw [Token.ofWord, Token.classify_classify] at hagain
    rwa [Token.spelling_of_ne (Token.classify_ne_string w)]
  | @number n hn =>
    obtain ⟨rfl, rfl⟩ := Prod.mk.inj hc
    exact number hn (wordEnds_of_blank hrest).isDigit h
  | @string s hs =>
    obtain ⟨rfl, rfl⟩ := Prod.mk.inj hc
    have hagain : Spells star _ _ := string hs h
    simpa [Token.spelling, Token.Value.written] using hagain
  | symbol lookback s =>
    obtain ⟨rfl, rfl⟩ := Prod.mk.inj hc
    have hkind : s.kind?.getD (Lexeme.starKind lookback) = s.kind?.getD star := by
      cases s
      case star => exact hstar (Lexeme.starKind_cases lookback)
      all_goals rfl
    rw [Token.spelling_of_ne (Token.kind_ofSymbol_ne_string lookback s)]
    have hagain : Spells star (s.chars ++ rest) (Token.ofSymbol star s :: ws) :=
      symbol s (fun _ d hd => by rw [hrest d hd]; decide) (hkind ▸ h)
    simpa [Token.ofSymbol, hkind, Token.Value.written] using hagain

/-- Tokens whose `*` all fit are read again. -/
theorem respelled {ts : List Token} {star' : Token.Kind} (hts : ∀ t ∈ ts, Token.Lexed t.content)
    (h : StarsFit star ts star') :
    Spells star (AccessPolicy.respelled ts).toList (ts.map Token.content) := by
  induction h with
  | nil => exact nil
  | @cons star star' t ts ht _ ih =>
    have hfirst := hts t List.mem_cons_self
    have hmore := ih fun u hu => hts u (List.mem_cons_of_mem t hu)
    cases ts with
    | nil =>
      have hone : Spells star (t.spelling.toList ++ []) [t.content] :=
        spelling hfirst ht (by simp) hmore
      simpa [AccessPolicy.respelled] using hone
    | cons u ts =>
      have hmany := spelling hfirst ht (by simp) (.blank (c := ' ') rfl hmore)
      simpa [AccessPolicy.respelled] using hmany

end TokenStream.Spells

/-- The tokens of any text, spelled out again, are read without a diagnostic and say the same as
before. -/
theorem tokenize_respelled (source : String) :
    (tokenize (respelled (tokenize source).tokens)).tokens.map Token.content =
        (tokenize source).tokens.map Token.content ∧
      (tokenize (respelled (tokenize source).tokens)).diagnostics = [] := by
  obtain ⟨star, hfit⟩ := exists_starsFit_tokenize source
  exact tokenize_of_spells (.respelled (fun t ht => Token.lexed_of_mem_tokenize ht) hfit)

/-- A keyword is spelled in capitals, and what gave no token is gone. -/
example : respelled (tokenize "cAN:@*\n\"a\"007 \"b").tokens = "CAN : * \"a\" 7" := by
  decide +kernel

end AccessPolicy
