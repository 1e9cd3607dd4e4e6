import AccessPolicy.Proofs.Span
import AccessPolicy.TokenStream

/-!
# Steps of a token stream

A stream passes over blanks, and each lexeme gives a token, a diagnostic or nothing. One lemma
for each of these says what is left afterwards (`TokenStream.next_of_token` and so on), and
everything else about streams goes through them.

`TokenStream.Spells` says of characters alone which tokens they give, up to their places, when
they give no diagnostic. The only context it needs is what a `*` would be.
-/

namespace AccessPolicy

/-- What a token says, without its place. -/
abbrev Token.Content : Type :=
  Token.Kind × Token.Value

/-- The kind and the value of a token. -/
def Token.content (t : Token) : Token.Content :=
  (t.kind, t.value)

/-- Characters that do not start with a blank start with a lexeme. -/
theorem Lexeme.next?_of_not_blank {p : Position} {c : Char} {cs : List Char}
    (hc : isBlank c = false) : next? p (c :: cs) = some (⟨(munch c cs).1, p⟩, (munch c cs).2) := by
  have hneg : ¬ isBlank c = true := by simp [hc]
  rw [next?, List.dropWhile_cons_of_neg hneg, List.takeWhile_cons_of_neg hneg, Position.past_nil]

theorem Lexeme.starKind_cases (lookback : Option Token.Kind) :
    starKind lookback = .wildcard ∨ starKind lookback = .times := by
  unfold starKind
  split <;> simp

namespace TokenStream

variable {s : TokenStream} {l : Lexeme.Placed} {rest : List Char}

/-! ## One step -/

theorem next_of_none (h : Lexeme.next? s.position s.rest = none) : s.next = (none, s.drained) := by
  rw [next]
  split
  · rfl
  · simp_all

theorem next_of_nothing (h : Lexeme.next? s.position s.rest = some (l, rest))
    (hl : Lexeme.read s.lookback l = .nothing) : s.next = (s.after l rest).next := by
  rw [next]
  split
  · simp_all
  · next l' rest' h' =>
    obtain ⟨rfl, rfl⟩ : l' = l ∧ rest' = rest := by simpa [h'] using h
    rw [hl]

theorem next_of_problem {d : Diagnostic} (h : Lexeme.next? s.position s.rest = some (l, rest))
    (hl : Lexeme.read s.lookback l = .problem d) :
    s.next = ((s.after l rest).report d).next := by
  rw [next]
  split
  · simp_all
  · next l' rest' h' =>
    obtain ⟨rfl, rfl⟩ : l' = l ∧ rest' = rest := by simpa [h'] using h
    rw [hl]

theorem next_of_token {t : Token} (h : Lexeme.next? s.position s.rest = some (l, rest))
    (hl : Lexeme.read s.lookback l = .token t) :
    s.next = (some t, { s.after l rest with lookback := some t.kind }) := by
  rw [next]
  split
  · simp_all
  · next l' rest' h' =>
    obtain ⟨rfl, rfl⟩ : l' = l ∧ rest' = rest := by simpa [h'] using h
    rw [hl]

theorem tokens_of_next_none {u : TokenStream} (h : s.next = (none, u)) : s.tokens = ([], u) := by
  rw [tokens]
  split <;> simp_all

theorem tokens_of_next_some {t : Token} {u : TokenStream} (h : s.next = (some t, u)) :
    s.tokens = (t :: u.tokens.1, u.tokens.2) := by
  rw [tokens]
  split <;> simp_all

theorem tokens_of_next_eq {u : TokenStream} (h : s.next = u.next) : s.tokens = u.tokens := by
  cases hu : u.next with
  | mk t? v =>
    rw [hu] at h
    cases t? with
    | none => rw [tokens_of_next_none h, tokens_of_next_none hu]
    | some t => rw [tokens_of_next_some h, tokens_of_next_some hu]

/-- Streams with the same next lexeme that have read the same go on alike. -/
theorem next_eq_next {u : TokenStream}
    (h : Lexeme.next? s.position s.rest = Lexeme.next? u.position u.rest)
    (hlookback : s.lookback = u.lookback) (hdiagnostics : s.diagnostics = u.diagnostics)
    (hend : s.position.past s.rest = u.position.past u.rest) : s.next = u.next := by
  have hafter : ∀ l rest, s.after l rest = u.after l rest := by
    simp [after, hlookback, hdiagnostics]
  cases hu : Lexeme.next? u.position u.rest with
  | none =>
    rw [next_of_none (h.trans hu), next_of_none hu, drained, drained, hend, hlookback,
      hdiagnostics]
  | some r =>
    obtain ⟨l, rest⟩ := r
    cases hl : Lexeme.read u.lookback l with
    | nothing =>
      rw [next_of_nothing (h.trans hu) (hlookback ▸ hl), next_of_nothing hu hl, hafter]
    | problem d =>
      rw [next_of_problem (h.trans hu) (hlookback ▸ hl), next_of_problem hu hl, hafter]
    | token t => rw [next_of_token (h.trans hu) (hlookback ▸ hl), next_of_token hu hl, hafter]

/-- A stream that starts with a blank goes on as if it started after it. -/
theorem next_of_blank {c : Char} {cs : List Char} (hs : s.rest = c :: cs)
    (hc : Lexeme.isBlank c = true) :
    s.next = { s with rest := cs, position := s.position.step c : TokenStream }.next := by
  refine next_eq_next ?_ rfl rfl (by rw [hs, Position.past_cons])
  rw [hs, Lexeme.next?, Lexeme.next?, List.dropWhile_cons_of_pos hc,
    List.takeWhile_cons_of_pos hc, Position.past_cons]

/-- A stream that starts with a line feed goes on as if it started after it. -/
theorem next_of_newline {cs : List Char} (hs : s.rest = '\n' :: cs) :
    s.next = { s with rest := cs, position := s.position.step '\n' : TokenStream }.next := by
  have hrun : ∀ {p : Position} {cs : List Char}, Lexeme.next? p ('\n' :: cs) =
      some (⟨⟨.newlines, '\n' :: cs.takeWhile (· = '\n')⟩, p⟩, cs.dropWhile (· = '\n')) := by
    intro p cs
    rw [Lexeme.next?_of_not_blank (by rfl)]
    rfl
  rw [next_of_nothing (hs ▸ hrun) rfl]
  cases cs with
  | nil => rfl
  | cons d cs =>
    by_cases hd : d = '\n'
    · subst hd
      rw [next_of_nothing (s := { s with rest := _, position := _ }) hrun rfl,
        List.takeWhile_cons_of_pos (by simp), List.dropWhile_cons_of_pos (by simp)]
      rfl
    · rw [List.takeWhile_cons_of_neg (by simpa using hd),
        List.dropWhile_cons_of_neg (by simpa using hd)]
      rfl

/-! ## Where tokens come from -/

/-- Every token is the reading of a lexeme. -/
theorem exists_read_of_next {t : Token} {u : TokenStream} (h : s.next = (some t, u)) :
    ∃ lookback c cs p, Lexeme.read lookback ⟨(Lexeme.munch c cs).1, p⟩ = .token t := by
  fun_induction next s with
  | case1 => simp at h
  | case2 _ _ _ _ _ ih => exact ih h
  | case3 _ _ _ _ _ _ ih => exact ih h
  | case4 s l rest hl t' ht' =>
    obtain ⟨rfl, -⟩ : t' = t ∧ _ := by simpa using h
    rw [Lexeme.next?] at hl
    split at hl
    · simp at hl
    · next c cs _ =>
      obtain ⟨rfl, -⟩ : _ = l ∧ _ = rest := by simpa using hl
      exact ⟨_, c, cs, _, ht'⟩

theorem exists_read_of_mem_tokens {t : Token} (h : t ∈ s.tokens.1) :
    ∃ lookback c cs p, Lexeme.read lookback ⟨(Lexeme.munch c cs).1, p⟩ = .token t := by
  fun_induction tokens s with
  | case1 => simp at h
  | case2 s t' u hnext ts v hts ih =>
    rcases List.mem_cons.mp h with rfl | h
    · exact exists_read_of_next hnext
    · exact ih (by simpa [hts] using h)

/-! ## Characters that spell tokens -/

/-- Where a `*` would be of the kind `star`, the characters give tokens with the contents `ws`
and no diagnostic. -/
def Spells (star : Token.Kind) (cs : List Char) (ws : List Token.Content) : Prop :=
  ∀ s : TokenStream, s.rest = cs → Lexeme.starKind s.lookback = star →
    s.tokens.1.map Token.content = ws ∧ s.tokens.2.diagnostics = s.diagnostics

namespace Spells

variable {star : Token.Kind} {c : Char} {cs : List Char} {ws : List Token.Content}

theorem nil : Spells star [] [] := by
  intro s hs _
  have hnone : Lexeme.next? s.position s.rest = none := by rw [hs]; rfl
  rw [tokens_of_next_none (next_of_none hnone)]
  exact ⟨rfl, rfl⟩

theorem blank (hc : Lexeme.isBlank c = true) (h : Spells star cs ws) :
    Spells star (c :: cs) ws := by
  intro s hs hstar
  rw [tokens_of_next_eq (next_of_blank hs hc)]
  exact h _ rfl hstar

theorem newline (h : Spells star cs ws) : Spells star ('\n' :: cs) ws := by
  intro s hs hstar
  rw [tokens_of_next_eq (next_of_newline hs)]
  exact h _ rfl hstar

/-- A lexeme that gives a token with the content `(k, v)` wherever it stands. -/
theorem token {l : Lexeme} {rest : List Char} {k : Token.Kind} {v : Token.Value}
    (hc : Lexeme.isBlank c = false) (hmunch : Lexeme.munch c cs = (l, rest))
    (hread : ∀ lookback p, Lexeme.starKind lookback = star →
      Lexeme.read lookback ⟨l, p⟩ = .token ⟨k, v, p.line, p.column⟩)
    (h : Spells (Lexeme.starKind (some k)) rest ws) : Spells star (c :: cs) ((k, v) :: ws) := by
  intro s hs hstar
  have hnext : Lexeme.next? s.position s.rest = some (⟨l, s.position⟩, rest) := by
    rw [hs, Lexeme.next?_of_not_blank hc, hmunch]
  have hread := hread s.lookback s.position hstar
  rw [tokens_of_next_some (next_of_token hnext hread)]
  obtain ⟨hcontents, hdiagnostics⟩ :=
    h { s.after ⟨l, s.position⟩ rest with lookback := some k } rfl rfl
  exact ⟨congrArg _ hcontents, hdiagnostics⟩

end Spells

end TokenStream

theorem cutAtByte_zero (cs : List Char) : cutAtByte 0 cs = ([], cs) := by
  cases cs with
  | nil => rfl
  | cons c cs => exact if_neg (Nat.not_le_of_lt c.utf8Size_pos)

@[simp] theorem TokenStream.ofString_eq (source : String) :
    ofString source = ⟨source.toList, Position.start, none, []⟩ := by
  rw [ofString, startingAt, cutAtByte_zero]
  rfl

/-- The tokens of a text that its characters spell. -/
theorem tokenize_of_spells {source : String} {ws : List Token.Content}
    (h : TokenStream.Spells .times source.toList ws) :
    (tokenize source).tokens.map Token.content = ws ∧ (tokenize source).diagnostics = [] :=
  h (TokenStream.ofString source) (congrArg TokenStream.rest (TokenStream.ofString_eq source))
    (congrArg (Lexeme.starKind ·.lookback) (TokenStream.ofString_eq source))

end AccessPolicy
