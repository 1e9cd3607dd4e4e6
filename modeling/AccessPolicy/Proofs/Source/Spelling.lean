import AccessPolicy.Proofs.Source.Stream

/-!
# What tokens say

The characters of a lexeme fit its shape (`Lexeme.proper_munch`), so tokens are words, numbers,
strings and symbols, and nothing else (`Token.Lexed`). Each of them can be spelled out again, and
is read back as long as the character after it is not taken for a part of it : `Spells.word`,
`Spells.number`, `Spells.string` and `Spells.symbol`.
-/

namespace AccessPolicy

/-! ## Spellings -/

namespace Lexeme

/-- Whether a text is one word. -/
def isWord (w : String) : Bool :=
  match w.toList with
  | [] => false
  | c :: cs => isWordStart c && cs.all isWordPart

/-- Whether a text can stand between quotes. -/
def isQuotable (s : String) : Bool :=
  s.toList.all isStringPart

theorem isWord_ofList_cons {c : Char} {cs : List Char} (hc : isWordStart c = true)
    (hcs : cs.all isWordPart = true) : isWord (String.ofList (c :: cs)) = true := by
  simp [isWord, hc, hcs]

theorem exists_cons_of_isWord {w : String} (h : isWord w = true) :
    ∃ c cs, w.toList = c :: cs ∧ isWordStart c = true ∧ ∀ d ∈ cs, isWordPart d = true := by
  rw [isWord] at h
  split at h
  · simp at h
  · next c cs hw =>
    rw [Bool.and_eq_true, List.all_eq_true] at h
    exact ⟨c, cs, hw, h⟩

end Lexeme

/-- The characters of a symbol. -/
def Symbol.chars : Symbol → List Char
  | ge => ['>', '=']
  | le => ['<', '=']
  | eq => ['=', '=']
  | ne => ['!', '=']
  | gt => ['>']
  | lt => ['<']
  | plus => ['+']
  | minus => ['-']
  | star => ['*']
  | divide => ['/']
  | lbrace => ['\x7b']
  | rbrace => ['\x7d']
  | lparen => ['(']
  | rparen => [')']
  | colon => [':']
  | dot => ['.']
  | comma => [',']

theorem Symbol.chars_of_ofPair? {c d : Char} {s : Symbol} (h : ofPair? c d = some s) :
    s.chars = [c, d] := by
  unfold ofPair? at h
  split at h <;> cases h <;> rfl

theorem Symbol.chars_of_ofChar? {c : Char} {s : Symbol} (h : ofChar? c = some s) :
    s.chars = [c] := by
  unfold ofChar? at h
  split at h <;> cases h <;> rfl

theorem Symbol.ofPair?_eq_none {c d : Char} (h : d ≠ '=') : ofPair? c d = none := by
  unfold ofPair?
  split <;> simp_all

namespace Token

/-- A word is a structural keyword, an attribute keyword or a name. -/
theorem classify_cases (w : String) :
    (∃ k, structuralKeyword? w = some k ∧ classify w = (k, w)) ∨
      (∃ k, attributeKeyword? (capitals w) = some k ∧ classify w = (k, capitals w)) ∨
        classify w = (.identifier, w) := by
  unfold classify
  cases hk : structuralKeyword? w with
  | some k => exact Or.inl ⟨k, rfl, rfl⟩
  | none =>
    cases hk : attributeKeyword? (capitals w) with
    | some k => exact Or.inr (Or.inl ⟨k, rfl, rfl⟩)
    | none => exact Or.inr (Or.inr rfl)

/-- What the token of a word says. -/
def ofWord (w : String) : Content :=
  ((classify w).1, .text (classify w).2)

/-- What the token of a symbol says where a `*` would be of the kind `star`. -/
def ofSymbol (star : Kind) (s : Symbol) : Content :=
  (s.kind?.getD star, .text (String.ofList s.chars))

/-- The contents of tokens that the lexer gives. -/
inductive Lexed : Content → Prop
  | word {w : String} (h : Lexeme.isWord w = true) : Lexed (ofWord w)
  | number {n : Nat} (h : n ≤ maxInt64) : Lexed (.number, .number n)
  | string {s : String} (h : Lexeme.isQuotable s = true) : Lexed (.string, .text s)
  | symbol (lookback : Option Kind) (s : Symbol) : Lexed (ofSymbol (Lexeme.starKind lookback) s)

end Token

/-! ## What lexemes look like -/

namespace Lexeme

/-- The characters of a lexeme fit its shape. -/
def Proper (l : Lexeme) : Prop :=
  match l.shape with
  | .newlines => ∀ c ∈ l.text, c = '\n'
  | .word => isWord (String.ofList l.text) = true
  | .digits => ∀ c ∈ l.text, c.isDigit = true
  | .quoted => ∃ cs, l.text = '"' :: cs ++ ['"'] ∧ ∀ c ∈ cs, isStringPart c = true
  | .unterminated => ∃ cs, l.text = '"' :: cs ∧ ∀ c ∈ cs, isStringPart c = true
  | .symbol s => l.text = s.chars
  | .illegal => ∃ c, l.text = [c] ∧ Symbol.ofChar? c = none

theorem proper_ofChar (c : Char) : (ofChar c).Proper := by
  unfold ofChar
  split
  · next s hs => exact (Symbol.chars_of_ofChar? hs).symm
  · next hs => exact ⟨c, rfl, hs⟩

theorem forall_mem_takeWhile (p : Char → Bool) (cs : List Char) :
    ∀ c ∈ cs.takeWhile p, p c = true :=
  List.all_eq_true.mp List.all_takeWhile

theorem proper_munch (c : Char) (cs : List Char) : (munch c cs).1.Proper := by
  unfold munch
  split
  · next hc =>
    exact List.forall_mem_cons.mpr
      ⟨hc, fun d hd => by simpa using forall_mem_takeWhile (· = '\n') cs d hd⟩
  split
  · next hc => exact isWord_ofList_cons hc List.all_takeWhile
  split
  · next hc => exact List.forall_mem_cons.mpr ⟨hc, forall_mem_takeWhile Char.isDigit cs⟩
  split
  · next hc =>
    subst hc
    split
    · exact ⟨_, rfl, forall_mem_takeWhile isStringPart cs⟩
    · exact ⟨_, rfl, forall_mem_takeWhile isStringPart cs⟩
  · split
    · exact proper_ofChar c
    · split
      · next s hs => exact (Symbol.chars_of_ofPair? hs).symm
      · exact proper_ofChar c

end Lexeme

/-- Every token says what the lexer gives. -/
theorem Token.lexed_of_read {lookback : Option Kind} {l : Lexeme} (hl : l.Proper) {p : Position}
    {t : Token} (h : Lexeme.read lookback ⟨l, p⟩ = .token t) : Lexed t.content := by
  obtain ⟨shape, text⟩ := l
  cases shape with
  | word =>
    obtain rfl := Lexeme.Reading.token.inj h
    exact .word hl
  | digits =>
    simp only [Lexeme.read] at h
    split at h
    · next hn =>
      obtain rfl := Lexeme.Reading.token.inj h
      exact .number hn
    · simp at h
  | quoted =>
    obtain ⟨cs, rfl, hcs⟩ := hl
    obtain rfl := Lexeme.Reading.token.inj h
    have hquotable : Lexeme.isQuotable (String.ofList cs) = true := by
      rw [Lexeme.isQuotable, String.toList_ofList]
      exact List.all_eq_true.mpr hcs
    simpa [content] using Lexed.string hquotable
  | symbol s =>
    obtain rfl : text = s.chars := hl
    obtain rfl := Lexeme.Reading.token.inj h
    exact .symbol lookback s
  | newlines | unterminated | illegal => simp [Lexeme.read] at h

theorem Token.lexed_of_mem_tokenize {source : String} {t : Token}
    (h : t ∈ (tokenize source).tokens) : Lexed t.content := by
  obtain ⟨lookback, c, cs, p, hread⟩ := TokenStream.exists_read_of_mem_tokens h
  exact lexed_of_read (Lexeme.proper_munch c cs) hread

/-! ## Reading a spelling -/

theorem Lexeme.isBlank_of_isWordStart {c : Char} (h : isWordStart c = true) :
    isBlank c = false := by
  rw [Bool.eq_false_iff]
  intro hb
  simp only [isBlank, Bool.or_eq_true, decide_eq_true_eq] at hb
  rcases hb with ((rfl | rfl) | rfl) | rfl <;> cases h

theorem Lexeme.isBlank_of_isDigit {c : Char} (h : c.isDigit = true) : isBlank c = false := by
  rw [Bool.eq_false_iff]
  intro hb
  simp only [isBlank, Bool.or_eq_true, decide_eq_true_eq] at hb
  rcases hb with ((rfl | rfl) | rfl) | rfl <;> cases h

theorem Lexeme.not_isWordStart_of_isDigit {c : Char} (h : c.isDigit = true) :
    ¬ isWordStart c = true := by
  intro hs
  have hdigit : c.toNat ≤ 57 := (Char.isDigit_iff_toNat.mp h).2
  have hcases : c.isUpper = true ∨ c.isLower = true ∨ c = '_' := by
    have hword : ((c.isUpper || c.isLower) || decide (c = '_')) = true := hs
    simpa [or_assoc] using hword
  rcases hcases with hupper | hlower | rfl
  · have hle : decide (c.val ≥ 65 ∧ c.val ≤ 90) = true := hupper
    have : 65 ≤ c.toNat := UInt32.le_iff_toNat_le.mp (of_decide_eq_true hle).1
    omega
  · have hle : (decide (c.val ≥ 97) && decide (c.val ≤ 122)) = true := hlower
    rw [Bool.and_eq_true, decide_eq_true_eq] at hle
    have : 97 ≤ c.toNat := UInt32.le_iff_toNat_le.mp hle.1
    omega
  · cases h

theorem Lexeme.munch_newline (cs : List Char) :
    munch '\n' cs = (⟨.newlines, '\n' :: cs.takeWhile (· = '\n')⟩, cs.dropWhile (· = '\n')) := rfl

theorem Lexeme.munch_of_isWordStart {c : Char} (hc : isWordStart c = true) (cs : List Char) :
    munch c cs = (⟨.word, c :: cs.takeWhile isWordPart⟩, cs.dropWhile isWordPart) := by
  have hne : c ≠ '\n' := by
    rintro rfl
    cases hc
  unfold munch
  rw [if_neg hne, if_pos hc]

theorem Lexeme.munch_of_isDigit {c : Char} (hc : c.isDigit = true) (cs : List Char) :
    munch c cs = (⟨.digits, c :: cs.takeWhile Char.isDigit⟩, cs.dropWhile Char.isDigit) := by
  have hne : c ≠ '\n' := by
    rintro rfl
    cases hc
  unfold munch
  rw [if_neg hne, if_neg (not_isWordStart_of_isDigit hc), if_pos hc]

theorem Lexeme.munch_word {c : Char} {cs rest : List Char} (hc : isWordStart c = true)
    (hcs : ∀ d ∈ cs, isWordPart d = true) (hrest : ∀ d ∈ rest.head?, isWordPart d = false) :
    munch c (cs ++ rest) = (⟨.word, c :: cs⟩, rest) := by
  rw [munch_of_isWordStart hc, takeWhile_append_of_head? hcs hrest,
    dropWhile_append_of_head? hcs hrest]

theorem Lexeme.munch_digits {c : Char} {cs rest : List Char} (hc : c.isDigit = true)
    (hcs : ∀ d ∈ cs, d.isDigit = true) (hrest : ∀ d ∈ rest.head?, d.isDigit = false) :
    munch c (cs ++ rest) = (⟨.digits, c :: cs⟩, rest) := by
  rw [munch_of_isDigit hc, takeWhile_append_of_head? hcs hrest,
    dropWhile_append_of_head? hcs hrest]

theorem Lexeme.munch_quoted {cs rest : List Char} (hcs : ∀ d ∈ cs, isStringPart d = true) :
    munch '"' (cs ++ '"' :: rest) = (⟨.quoted, '"' :: cs ++ ['"']⟩, rest) := by
  have hquote : ∀ d ∈ ('"' :: rest).head?, isStringPart d = false := by
    intro d hd
    obtain rfl := Option.some.inj hd
    rfl
  unfold munch
  rw [if_neg (by decide), if_neg (by decide), if_neg (by decide), if_pos rfl,
    takeWhile_append_of_head? hcs hquote, dropWhile_append_of_head? hcs hquote]
  rfl

theorem Lexeme.munch_unterminated {cs rest : List Char} (hcs : ∀ d ∈ cs, isStringPart d = true)
    (hrest : ∀ d ∈ rest.head?, d = '\n') :
    munch '"' (cs ++ rest) = (⟨.unterminated, '"' :: cs⟩, rest) := by
  have hend : ∀ d ∈ rest.head?, isStringPart d = false := by
    intro d hd
    rw [hrest d hd]
    rfl
  unfold munch
  rw [if_neg (by decide), if_neg (by decide), if_neg (by decide), if_pos rfl,
    takeWhile_append_of_head? hcs hend, dropWhile_append_of_head? hcs hend]
  cases rest with
  | nil => rfl
  | cons d rest =>
    obtain rfl := hrest d rfl
    rfl

theorem Lexeme.exists_munch_symbol (s : Symbol) {rest : List Char}
    (hrest : s = .gt ∨ s = .lt → ∀ d ∈ rest.head?, d ≠ '=') :
    ∃ c cs, s.chars ++ rest = c :: cs ∧ isBlank c = false ∧
      munch c cs = (⟨.symbol s, s.chars⟩, rest) := by
  cases s
  case ge | le | eq | ne => exact ⟨_, _, rfl, rfl, rfl⟩
  case gt =>
    refine ⟨'>', rest, rfl, rfl, ?_⟩
    cases rest with
    | nil => rfl
    | cons d rest =>
      have hpair : Symbol.ofPair? '>' d = none := Symbol.ofPair?_eq_none (hrest (Or.inl rfl) d rfl)
      unfold munch
      simp [hpair, isWordStart, ofChar, Symbol.ofChar?, Symbol.chars]
  case lt =>
    refine ⟨'<', rest, rfl, rfl, ?_⟩
    cases rest with
    | nil => rfl
    | cons d rest =>
      have hpair : Symbol.ofPair? '<' d = none := Symbol.ofPair?_eq_none (hrest (Or.inr rfl) d rfl)
      unfold munch
      simp [hpair, isWordStart, ofChar, Symbol.ofChar?, Symbol.chars]
  -- No pair starts with one of the others, whatever comes next.
  all_goals
    refine ⟨_, rest, rfl, rfl, ?_⟩
    cases rest <;> rfl

namespace TokenStream.Spells

variable {star : Token.Kind} {rest : List Char} {ws : List Token.Content}

/-- A `*` after a word is no wildcard. -/
theorem starKind_classify (w : String) : Lexeme.starKind (some (Token.classify w).1) = .times := by
  rcases Token.classify_cases w with ⟨k, hk, h⟩ | ⟨k, hk, h⟩ | h
  · rw [h]
    unfold Token.structuralKeyword? at hk
    split at hk <;> cases hk <;> rfl
  · rw [h]
    unfold Token.attributeKeyword? at hk
    split at hk <;> cases hk <;> rfl
  · rw [h]
    rfl

theorem word {w : String} (hw : Lexeme.isWord w = true)
    (hrest : ∀ c ∈ rest.head?, Lexeme.isWordPart c = false) (h : Spells .times rest ws) :
    Spells star (w.toList ++ rest) (Token.ofWord w :: ws) := by
  obtain ⟨c, cs, hw, hc, hcs⟩ := Lexeme.exists_cons_of_isWord hw
  have hchars : String.ofList (c :: cs) = w := by rw [← hw, String.ofList_toList]
  rw [hw]
  refine .token (Lexeme.isBlank_of_isWordStart hc) (Lexeme.munch_word hc hcs hrest) ?_ ?_
  · intro lookback p _
    simp [Lexeme.read, hchars]
  · rwa [starKind_classify]

theorem number {n : Nat} (hn : n ≤ maxInt64) (hrest : ∀ c ∈ rest.head?, c.isDigit = false)
    (h : Spells .times rest ws) :
    Spells star (n.repr.toList ++ rest) ((.number, .number n) :: ws) := by
  have hdigit : ∀ d ∈ Nat.toDigits 10 n, d.isDigit = true := fun d hd =>
    Nat.isDigit_of_mem_toDigits (by omega) (by omega) hd
  have hvalue : Nat.ofDigitChars 10 (Nat.toDigits 10 n) 0 = n := Nat.ofDigitChars_ten_toDigits
  rw [Nat.toList_repr]
  obtain ⟨c, cs, hchars⟩ := List.exists_cons_of_ne_nil (Nat.toDigits_ne_nil (n := n) (b := 10))
  rw [hchars] at hdigit hvalue ⊢
  rw [List.forall_mem_cons] at hdigit
  refine .token ?_ (Lexeme.munch_digits hdigit.1 hdigit.2 hrest) ?_ h
  · exact Lexeme.isBlank_of_isDigit hdigit.1
  · intro lookback p _
    simp [Lexeme.read, hvalue, hn]

theorem string {s : String} (hs : Lexeme.isQuotable s = true) (h : Spells .times rest ws) :
    Spells star ('"' :: (s.toList ++ '"' :: rest)) ((.string, .text s) :: ws) := by
  rw [Lexeme.isQuotable, List.all_eq_true] at hs
  refine .token rfl (Lexeme.munch_quoted hs) ?_ h
  intro lookback p _
  simp [Lexeme.read]

theorem symbol (s : Symbol) (hrest : s = .gt ∨ s = .lt → ∀ d ∈ rest.head?, d ≠ '=')
    (h : Spells (Lexeme.starKind (some (s.kind?.getD star))) rest ws) :
    Spells star (s.chars ++ rest) (Token.ofSymbol star s :: ws) := by
  obtain ⟨c, cs, hchars, hc, hmunch⟩ := Lexeme.exists_munch_symbol s hrest
  rw [hchars]
  refine .token hc hmunch ?_ h
  intro lookback p hstar
  simp [Lexeme.read, hstar]

end TokenStream.Spells

end AccessPolicy
