import AccessPolicy.Proofs.Source.Spelling

/-!
# Readings of lexemes

A token stream cuts the text as it goes, and reads each lexeme right away. The same comes out if
the whole text is cut first and then read lexeme by lexeme (`TokenStream.tokens_eq_readings`).
Nothing but the kind of the last token passes from one lexeme to the next, and only a `*` looks
at it : the diagnostics do not depend on it, and of the tokens only the first can.
-/

namespace AccessPolicy

namespace Lexeme

namespace Reading

/-- The token of a reading, if it is one. -/
def token? : Reading → Option Token
  | token t => some t
  | nothing | problem _ => none

/-- The diagnostic of a reading, if it is one. -/
def problem? : Reading → Option Diagnostic
  | problem d => some d
  | nothing | token _ => none

/-- The kind of the last token given once there was a reading. -/
def lookback (before : Option Token.Kind) (r : Reading) : Option Token.Kind :=
  (r.token?.map Token.kind).or before

end Reading

/-- The readings of lexemes in order, given the kind of the token before them. -/
def readAll (lookback : Option Token.Kind) : List Placed → List Reading
  | [] => []
  | l :: ls => read lookback l :: readAll ((read lookback l).lookback lookback) ls

theorem exists_read_of_mem_readAll {lookback : Option Token.Kind} {ls : List Placed} {r : Reading}
    (h : r ∈ readAll lookback ls) : ∃ l ∈ ls, ∃ before, read before l = r := by
  induction ls generalizing lookback with
  | nil => simp [readAll] at h
  | cons l ls ih =>
    rcases List.mem_cons.mp h with rfl | h
    · exact ⟨l, List.mem_cons_self, lookback, rfl⟩
    · obtain ⟨m, hm, hread⟩ := ih h
      exact ⟨m, List.mem_cons_of_mem l hm, hread⟩

theorem scan_of_none {p : Position} {cs : List Char} (h : next? p cs = none) :
    scan p cs = [] := by
  rw [scan]
  split <;> simp_all

theorem scan_of_some {p : Position} {cs rest : List Char} {l : Placed}
    (h : next? p cs = some (l, rest)) : scan p cs = l :: scan l.stop rest := by
  rw [scan]
  split <;> simp_all

end Lexeme

namespace TokenStream

/-- The readings of all that is left. -/
def readings (s : TokenStream) : List Lexeme.Reading :=
  Lexeme.readAll s.lookback (Lexeme.scan s.position s.rest)

theorem readings_of_none {s : TokenStream} (h : Lexeme.next? s.position s.rest = none) :
    s.readings = [] := by
  rw [readings, Lexeme.scan_of_none h, Lexeme.readAll]

theorem readings_of_some {s : TokenStream} {l : Lexeme.Placed} {rest : List Char}
    (h : Lexeme.next? s.position s.rest = some (l, rest)) :
    s.readings = Lexeme.read s.lookback l ::
      Lexeme.readAll ((Lexeme.read s.lookback l).lookback s.lookback)
        (Lexeme.scan l.stop rest) := by
  rw [readings, Lexeme.scan_of_some h, Lexeme.readAll]

/-- Tokens and diagnostics are those of the lexemes that are left, in order. -/
theorem tokens_eq_readings (s : TokenStream) :
    s.tokens.1 = s.readings.filterMap Lexeme.Reading.token? ∧
      s.tokens.2.diagnostics =
        s.diagnostics ++ s.readings.filterMap Lexeme.Reading.problem? := by
  generalize hp : s.position = p
  generalize hcs : s.rest = cs
  fun_induction Lexeme.scan p cs generalizing s with
  | case1 p cs hnone =>
    subst hp hcs
    rw [tokens_of_next_none (next_of_none hnone), readings_of_none hnone]
    simp [drained]
  | case2 p cs l rest hsome ih =>
    subst hp hcs
    rw [readings_of_some hsome]
    cases hl : Lexeme.read s.lookback l with
    | nothing =>
      rw [tokens_of_next_eq (next_of_nothing hsome hl)]
      exact ih (s.after l rest) rfl rfl
    | problem d =>
      rw [tokens_of_next_eq (next_of_problem hsome hl)]
      obtain ⟨htokens, hdiagnostics⟩ := ih ((s.after l rest).report d) rfl rfl
      exact ⟨htokens, hdiagnostics.trans (List.append_assoc _ _ _)⟩
    | token t =>
      rw [tokens_of_next_some (next_of_token hsome hl)]
      obtain ⟨htokens, hdiagnostics⟩ :=
        ih { s.after l rest with lookback := some t.kind } rfl rfl
      exact ⟨congrArg (t :: ·) htokens, hdiagnostics⟩

theorem exists_lexeme_of_mem_tokens {s : TokenStream} {t : Token} (h : t ∈ s.tokens.1) :
    ∃ l ∈ Lexeme.scan s.position s.rest, ∃ before, Lexeme.read before l = .token t := by
  rw [s.tokens_eq_readings.1] at h
  obtain ⟨r, hr, hrt⟩ := List.mem_filterMap.mp h
  cases r with
  | token t' =>
    obtain rfl : t' = t := Option.some.inj hrt
    exact Lexeme.exists_read_of_mem_readAll hr
  | nothing | problem d => simp [Lexeme.Reading.token?] at hrt

theorem exists_lexeme_of_mem_diagnostics {s : TokenStream} {d : Diagnostic}
    (hnone : s.diagnostics = []) (h : d ∈ s.tokens.2.diagnostics) :
    ∃ l ∈ Lexeme.scan s.position s.rest, ∃ before, Lexeme.read before l = .problem d := by
  rw [s.tokens_eq_readings.2, hnone, List.nil_append] at h
  obtain ⟨r, hr, hrd⟩ := List.mem_filterMap.mp h
  cases r with
  | problem d' =>
    obtain rfl : d' = d := Option.some.inj hrd
    exact Lexeme.exists_read_of_mem_readAll hr
  | nothing | token t => simp [Lexeme.Reading.problem?] at hrd

end TokenStream

/-! ## What the token before decides -/

/-- The token is a `*`, read either way. -/
def Token.IsStar (t : Token) : Prop :=
  t.kind = .wildcard ∨ t.kind = .times

instance (t : Token) : Decidable t.IsStar :=
  inferInstanceAs (Decidable (_ ∨ _))

/-- The token, where a `*` is of the kind `star`. -/
def Token.withStar (star : Kind) (t : Token) : Token :=
  if t.IsStar then { t with kind := star } else t

theorem Token.withStar_of_isStar {t : Token} (h : t.IsStar) (star : Kind) :
    t.withStar star = { t with kind := star } :=
  if_pos h

theorem Token.withStar_of_not_isStar {t : Token} (h : ¬ t.IsStar) (star : Kind) :
    t.withStar star = t :=
  if_neg h

/-- After the token a `*` is a wildcard. -/
def Token.asksForWildcard (t : Token) : Bool :=
  t.kind = .colon || t.kind = .lbrace

theorem Lexeme.starKind_map_kind (t? : Option Token) :
    starKind (t?.map Token.kind) = if t?.any Token.asksForWildcard then .wildcard else .times := by
  cases t? with
  | none => rfl
  | some t =>
    obtain ⟨kind, value, line, column⟩ := t
    cases kind <;> rfl

theorem Token.not_isStar_of_classify {w : String} {t : Token} (h : t.kind = (classify w).1) :
    ¬ t.IsStar := by
  rw [IsStar, h]
  rcases classify_cases w with ⟨k, hk, hw⟩ | ⟨k, hk, hw⟩ | hw
  · rw [hw]
    unfold structuralKeyword? at hk
    split at hk <;> cases hk <;> simp
  · rw [hw]
    unfold attributeKeyword? at hk
    split at hk <;> cases hk <;> simp
  · simp [hw]

namespace Lexeme

variable {l : Placed}

theorem read_star (h : l.lexeme.shape = .symbol .star) (lookback : Option Token.Kind) :
    read lookback l = .token ⟨starKind lookback, .text (String.ofList l.lexeme.text),
      l.start.line, l.start.column⟩ := by
  rw [read, h]
  rfl

/-- Every lexeme but `*` is read the same after any token. -/
theorem read_of_not_star (h : l.lexeme.shape ≠ .symbol .star) (before before' : Option Token.Kind) :
    read before l = read before' l := by
  unfold read
  cases hl : l.lexeme.shape with
  | symbol s =>
    cases s with
    | star => exact absurd hl h
    | _ => rfl
  | _ => rfl

/-- No token but that of a `*` is one. -/
theorem not_isStar_of_read {lookback : Option Token.Kind} {t : Token}
    (h : l.lexeme.shape ≠ .symbol .star) (ht : read lookback l = .token t) : ¬ t.IsStar := by
  unfold read at ht
  cases hl : l.lexeme.shape with
  | word =>
    simp only [hl] at ht
    obtain rfl := Reading.token.inj ht
    exact Token.not_isStar_of_classify rfl
  | digits =>
    simp only [hl] at ht
    split at ht
    · obtain rfl := Reading.token.inj ht
      simp [Token.IsStar]
    · simp at ht
  | quoted =>
    simp only [hl] at ht
    obtain rfl := Reading.token.inj ht
    simp [Token.IsStar]
  | symbol s =>
    simp only [hl] at ht
    obtain rfl := Reading.token.inj ht
    cases s with
    | star => exact absurd hl h
    | _ => simp [Token.IsStar, Symbol.kind?]
  | newlines | unterminated | illegal => simp [hl] at ht

/-- The readings of lexemes depend on no more than what a `*` would be. -/
theorem readAll_congr {before before' : Option Token.Kind}
    (h : starKind before = starKind before') (ls : List Placed) :
    readAll before ls = readAll before' ls := by
  induction ls generalizing before before' with
  | nil => rfl
  | cons l ls ih =>
    have hread : read before l = read before' l := by
      by_cases hl : l.lexeme.shape = .symbol .star
      · rw [read_star hl, read_star hl, h]
      · exact read_of_not_star hl before before'
    rw [readAll, readAll, hread]
    congr 1
    refine ih ?_
    cases ht : (read before' l).token? <;> simp [Reading.lookback, ht, h]

/-- Diagnostics do not depend on the token before. -/
theorem problems_readAll (before before' : Option Token.Kind) (ls : List Placed) :
    (readAll before ls).filterMap Reading.problem? =
      (readAll before' ls).filterMap Reading.problem? := by
  induction ls generalizing before before' with
  | nil => rfl
  | cons l ls ih =>
    rw [readAll, readAll]
    by_cases hl : l.lexeme.shape = .symbol .star
    · rw [read_star hl, read_star hl]
      exact ih _ _
    · rw [read_of_not_star hl before before', List.filterMap_cons, List.filterMap_cons]
      rw [ih _ ((read before' l).lookback before')]

/-- After another token, a `*` that comes first may be read the other way. All other tokens are the
same. -/
theorem tokens_readAll (before before' : Option Token.Kind) (ls : List Placed) :
    (readAll before' ls).filterMap Reading.token? =
      ((readAll before ls).filterMap Reading.token?).modifyHead
        (Token.withStar (starKind before')) := by
  induction ls with
  | nil => rfl
  | cons l ls ih =>
    rw [readAll, readAll]
    by_cases hl : l.lexeme.shape = .symbol .star
    · rw [read_star hl, read_star hl]
      -- Whichever way this `*` is read, no `*` right after it is a wildcard.
      have hnext : ∀ b, starKind (some (starKind b)) = .times := fun b => by
        rcases starKind_cases b with hb | hb <;> rw [hb] <;> rfl
      have hrest : readAll (some (starKind before')) ls = readAll (some (starKind before)) ls :=
        readAll_congr ((hnext before').trans (hnext before).symm) ls
      rw [List.filterMap_cons_some (by rfl), List.filterMap_cons_some (by rfl),
        List.modifyHead_cons, Token.withStar_of_isStar (by exact starKind_cases before)]
      exact congrArg (_ :: List.filterMap _ ·) hrest
    · rw [read_of_not_star hl before' before]
      cases hr : read before l with
      | token t =>
        have ht := Token.withStar_of_not_isStar (not_isStar_of_read hl hr) (starKind before')
        exact congrArg (· :: _) ht.symm
      | nothing => exact ih
      | problem d => exact ih

end Lexeme

/-- With another token before it, a stream gives the same but for a `*` that comes first. -/
theorem TokenStream.tokens_withLookback (s : TokenStream) (before : Option Token.Kind) :
    let u := { s with lookback := before }
    u.tokens.1 = s.tokens.1.modifyHead (Token.withStar (Lexeme.starKind before)) ∧
      u.tokens.2.diagnostics = s.tokens.2.diagnostics := by
  intro u
  obtain ⟨htokens, hdiagnostics⟩ := s.tokens_eq_readings
  obtain ⟨htokens', hdiagnostics'⟩ := u.tokens_eq_readings
  rw [htokens, htokens', hdiagnostics, hdiagnostics']
  exact ⟨Lexeme.tokens_readAll s.lookback before _,
    congrArg (s.diagnostics ++ ·) (Lexeme.problems_readAll before s.lookback _)⟩

end AccessPolicy
