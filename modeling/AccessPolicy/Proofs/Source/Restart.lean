import AccessPolicy.Proofs.Source.Offset
import AccessPolicy.Proofs.Source.Readings

/-!
# Restarting a token stream

`TokenStream.nexts` asks a stream for a number of tokens. A stream that is opened at the offset
where another stopped gives what the other would still have given, with one exception : it has
forgotten the token before, so a `*` right there is a product sign
(`TokenStream.tokens_restart`).

A stream keeps its position up to date as it goes, and a new one works it out from the text
ahead. That they agree is the invariant `TokenStream.StandsIn`, which every call keeps.
-/

namespace AccessPolicy

/-- The token with a wildcard read as a product sign. -/
def Token.asTimes (t : Token) : Token :=
  if t.kind = .wildcard then { t with kind := .times } else t

theorem Token.asTimes_eq (t : Token) : t.asTimes = t.withStar .times := by
  by_cases hw : t.kind = .wildcard
  · rw [withStar_of_isStar (Or.inl hw), asTimes, if_pos hw]
  rw [asTimes, if_neg hw]
  by_cases ht : t.kind = .times
  · rw [withStar_of_isStar (Or.inr ht), ← ht]
  · rw [withStar_of_not_isStar (not_or.mpr ⟨hw, ht⟩)]

namespace TokenStream

variable {source : String} {s u : TokenStream}

/-! ## Calls -/

/-- The tokens that `k` calls give, and the stream after them. -/
def nexts (s : TokenStream) : Nat → List Token × TokenStream
  | 0 => ([], s)
  | k + 1 => (s.next.1.toList ++ (s.next.2.nexts k).1, (s.next.2.nexts k).2)

/-- A stream with nothing left stays as it is. -/
theorem next_of_next_eq_none (h : s.next = (none, u)) : u.next = (none, u) := by
  fun_induction next s with
  | case1 s _ =>
    obtain rfl : s.drained = u := congrArg Prod.snd h
    have hnone : Lexeme.next? s.drained.position s.drained.rest = none := rfl
    exact next_of_none hnone
  | case2 _ _ _ _ _ ih => exact ih h
  | case3 _ _ _ _ _ _ ih => exact ih h
  | case4 => simp at h

/-- A call gives the first of the tokens that are left. -/
theorem tokens_eq_next_append (s : TokenStream) :
    s.tokens = (s.next.1.toList ++ s.next.2.tokens.1, s.next.2.tokens.2) := by
  cases hs : s.next with
  | mk t? u =>
    cases t? with
    | none => rw [tokens_of_next_none hs, tokens_of_next_none (next_of_next_eq_none hs)]; rfl
    | some t => rw [tokens_of_next_some hs]; rfl

theorem tokens_eq_nexts_append (s : TokenStream) (k : Nat) :
    s.tokens = ((s.nexts k).1 ++ (s.nexts k).2.tokens.1, (s.nexts k).2.tokens.2) := by
  induction k generalizing s with
  | zero => rfl
  | succ k ih => rw [nexts, tokens_eq_next_append, ih s.next.2, List.append_assoc]

/-! ## Positions -/

theorem StandsIn.after (h : s.StandsIn source) {l : Lexeme.Placed} {rest : List Char}
    (hl : Lexeme.next? s.position s.rest = some (l, rest)) : (s.after l rest).StandsIn source := by
  obtain ⟨before, hsource, hposition⟩ := h
  obtain ⟨gap, c, more, -, hrest, hstart, -⟩ := Lexeme.exists_gap_of_next? hl
  refine ⟨before ++ gap ++ l.lexeme.text, ?_, ?_⟩
  · simp [hsource, hrest, TokenStream.after]
  · simp [TokenStream.after, Lexeme.Placed.stop, hstart, hposition]

theorem StandsIn.next (h : s.StandsIn source) : s.next.2.StandsIn source := by
  fun_induction TokenStream.next s with
  | case1 s _ =>
    obtain ⟨before, hsource, hposition⟩ := h
    exact ⟨before ++ s.rest, by simp [drained, hsource], by simp [drained, hposition]⟩
  | case2 s l rest hl _ ih => exact ih (h.after hl)
  | case3 s l rest hl d _ ih => exact ih (h.after hl)
  | case4 s l rest hl t _ => exact h.after hl

theorem StandsIn.nexts (h : s.StandsIn source) (k : Nat) : (s.nexts k).2.StandsIn source := by
  induction k generalizing s with
  | zero => exact h
  | succ k ih => exact ih h.next

/-! ## Restarts -/

/-- A stream that is opened where another stands gives what the other would still have given, up to
a wildcard that comes first. -/
theorem StandsIn.tokens_startingAt (h : s.StandsIn source) :
    (startingAt source s.offset).tokens.1 = s.tokens.1.modifyHead Token.asTimes ∧
      s.tokens.2.diagnostics =
        s.diagnostics ++ (startingAt source s.offset).tokens.2.diagnostics := by
  obtain ⟨htokens, hdiagnostics⟩ := s.tokens_eq_readings
  obtain ⟨htokens', hdiagnostics'⟩ := (startingAt source s.offset).tokens_eq_readings
  rw [htokens, hdiagnostics, htokens', hdiagnostics', h.startingAt_offset]
  refine ⟨?_, ?_⟩
  · rw [funext Token.asTimes_eq]
    exact Lexeme.tokens_readAll s.lookback none _
  · rw [List.nil_append]
    exact congrArg _ (Lexeme.problems_readAll _ _ _)

/-- What all calls give is what some calls give and then what a stream gives that is opened where
they stopped, except that a `*` right there is a product sign to it. -/
theorem tokens_restart (source : String) (start k : Nat) :
    let s := startingAt source start
    let u := (s.nexts k).2
    let again := startingAt source u.offset
    ∃ rest, s.tokens.1 = (s.nexts k).1 ++ rest ∧
      again.tokens.1 = rest.modifyHead Token.asTimes ∧
        s.tokens.2.diagnostics = u.diagnostics ++ again.tokens.2.diagnostics := by
  intro s u again
  have hstands : u.StandsIn source := (standsIn_startingAt source start).nexts k
  obtain ⟨htokens, hdiagnostics⟩ := hstands.tokens_startingAt
  have hall : s.tokens = ((s.nexts k).1 ++ u.tokens.1, u.tokens.2) := s.tokens_eq_nexts_append k
  exact ⟨u.tokens.1, congrArg Prod.fst hall, htokens, by rw [hall, hdiagnostics]⟩

end TokenStream

end AccessPolicy
