import AccessPolicy.Proofs.Source.Suffix

/-!
# Reading line by line

A lexeme other than a run of line feeds is the same whether a line feed follows it or the text ends
(`Lexeme.munch_append_newline`). A stream that comes to the end of a line has therefore read what it
would have read of the text up to there, and goes on behind the line feed with no more than its
position and the kind of its last token (`TokenStream.readsApart`). The position moves what comes
later to its lines, and the kind only matters to a `*` (`tokenize_append_newline`).
-/

namespace AccessPolicy

/-- The token that many lines further down. -/
def Token.below (lines : Nat) (t : Token) : Token :=
  { t with line := t.line + lines }

/-- The diagnostic that many lines further down. -/
def Diagnostic.below (lines : Nat) (d : Diagnostic) : Diagnostic :=
  { d with line := d.line + lines }

theorem columnBehind_concat_newline (cs : List Char) (line column : Nat) :
    columnBehind (cs ++ ['\n']) line column = column := by
  rw [columnBehind, lastLine_concat_newline]
  exact ite_id column

theorem count_concat_newline (cs : List Char) : (cs ++ ['\n']).count '\n' = 1 + cs.count '\n' := by
  rw [List.count_append, List.count_singleton_self, Nat.add_comm]

theorem Token.behind_concat_newline (cs : List Char) (t : Token) :
    t.behind (cs ++ ['\n']) = t.below (1 + cs.count '\n') := by
  rw [behind, below, count_concat_newline, columnBehind_concat_newline]

theorem Diagnostic.behind_concat_newline (cs : List Char) (d : Diagnostic) :
    d.behind (cs ++ ['\n']) = d.below (1 + cs.count '\n') := by
  rw [behind, below, count_concat_newline, columnBehind_concat_newline]

theorem Token.below_withStar (lines : Nat) (star : Kind) (t : Token) :
    (t.withStar star).below lines = (t.below lines).withStar star := by
  by_cases h : t.IsStar
  · have hbelow : (t.below lines).IsStar := h
    rw [withStar_of_isStar h, withStar_of_isStar hbelow]
    rfl
  · have hbelow : ¬ (t.below lines).IsStar := h
    rw [withStar_of_not_isStar h, withStar_of_not_isStar hbelow]

theorem Token.map_below_modifyHead (lines : Nat) (star : Kind) (ts : List Token) :
    (ts.modifyHead (withStar star)).map (below lines) =
      (ts.map (below lines)).modifyHead (withStar star) := by
  cases ts with
  | nil => rfl
  | cons t ts => exact congrArg (· :: ts.map (below lines)) (below_withStar lines star t)

/-! ## Line feeds and lexemes -/

namespace Lexeme

theorem munch_append_newline {c : Char} {cs : List Char}
    (h : (munch c cs).1.shape ≠ .newlines) (ds : List Char) :
    munch c (cs ++ '\n' :: ds) = ((munch c cs).1, (munch c cs).2 ++ '\n' :: ds) := by
  have hc : c ≠ '\n' := by
    rintro rfl
    exact h rfl
  unfold munch
  rw [if_neg hc, if_neg hc]
  split
  · rw [takeWhile_append_cons (by rfl), dropWhile_append_cons (by rfl)]
  split
  · rw [takeWhile_append_cons (by rfl), dropWhile_append_cons (by rfl)]
  split
  · rw [takeWhile_append_cons (by rfl), dropWhile_append_cons (by rfl)]
    cases cs.dropWhile isStringPart with
    | nil => rfl
    | cons d rest =>
      by_cases hd : d = '"'
      · subst hd
        rfl
      · have hne : ∀ more more', d :: more ≠ '"' :: more' := fun _ _ h => hd (List.cons.inj h).1
        rw [List.cons_append]
        split
        · next heq => exact absurd heq (hne _ _)
        · split
          · next heq => exact absurd heq (hne _ _)
          · rfl
  · cases cs with
    | nil =>
      have hpair : Symbol.ofPair? c '\n' = none := Symbol.ofPair?_eq_none (by decide)
      rw [List.nil_append]
      simp only [hpair]
    | cons d rest =>
      simp only [List.cons_append]
      split <;> rfl

theorem next?_append_newline {p : Position} {cs rest : List Char} {l : Placed}
    (h : next? p cs = some (l, rest)) (hl : l.lexeme.shape ≠ .newlines) (ds : List Char) :
    next? p (cs ++ '\n' :: ds) = some (l, rest ++ '\n' :: ds) := by
  unfold next? at h ⊢
  rw [takeWhile_append_cons (by rfl), dropWhile_append_cons (by rfl)]
  split at h
  · simp at h
  · next c more hc =>
    obtain ⟨rfl, rfl⟩ := Prod.mk.inj (Option.some.inj h)
    rw [hc, List.cons_append]
    simp only [munch_append_newline hl]

/-- The lexeme and what is left end where the text ends. -/
theorem past_of_next? {p : Position} {cs rest : List Char} {l : Placed}
    (h : next? p cs = some (l, rest)) : l.stop.past rest = p.past cs := by
  obtain ⟨gap, -, -, -, rfl, hstart, -⟩ := exists_gap_of_next? h
  rw [Placed.stop, hstart, Position.past_append, Position.past_append]

end Lexeme

namespace TokenStream

/-- A stream goes on as if it started after characters that give nothing. -/
theorem next_of_append {cs ds : List Char}
    (hcs : ∀ c ∈ cs, Lexeme.isBlank c = true ∨ c = '\n') {s : TokenStream}
    (hs : s.rest = cs ++ ds) :
    s.next = { s with rest := ds, position := s.position.past cs : TokenStream }.next := by
  induction cs generalizing s with
  | nil =>
    obtain rfl : s.rest = ds := hs
    rfl
  | cons c cs ih =>
    obtain ⟨hc, hcs⟩ := List.forall_mem_cons.mp hcs
    have hstep : s.next =
        { s with rest := cs ++ ds, position := s.position.step c : TokenStream }.next := by
      rcases hc with hblank | rfl
      · exact next_of_blank hs hblank
      · exact next_of_newline hs
    rw [hstep, ih hcs rfl]
    rfl

/-! ## The last token -/

/-- A call keeps in mind the token that it gives. -/
theorem lookback_next (s : TokenStream) :
    s.next.2.lookback = (s.next.1.map Token.kind).or s.lookback := by
  fun_induction next s with
  | case1 | case4 => rfl
  | case2 _ _ _ _ _ ih => exact ih
  | case3 _ _ _ _ _ _ ih => exact ih

/-- After all calls a stream has the last of the tokens in mind. -/
theorem lookback_tokens (s : TokenStream) :
    s.tokens.2.lookback = (s.tokens.1.getLast?.map Token.kind).or s.lookback := by
  fun_induction tokens s with
  | case1 s u hnext =>
    have hlookback := s.lookback_next
    rwa [hnext] at hlookback
  | case2 s t u hnext ts v hts ih =>
    have hlookback := s.lookback_next
    rw [hnext] at hlookback
    rw [hts, hlookback] at ih
    rw [List.getLast?_cons]
    cases hlast : ts.getLast? <;> simp [hlast] at ih ⊢ <;> exact ih

/-! ## Two texts on lines of their own -/

/-- The stream with more text behind what is left. -/
def extended (s : TokenStream) (ds : List Char) : TokenStream :=
  { s with rest := s.rest ++ ds }

/-- The stream that reads `ds` on a new line after all of the stream `s`. -/
def onNewLine (s : TokenStream) (ds : List Char) : TokenStream :=
  ⟨ds, (s.position.past s.rest).step '\n', s.tokens.2.lookback, s.tokens.2.diagnostics⟩

/-- What is left and `ds` on a new line behind it are read one after the other. -/
def ReadsApart (s : TokenStream) (ds : List Char) : Prop :=
  (s.extended ('\n' :: ds)).tokens =
    (s.tokens.1 ++ (s.onNewLine ds).tokens.1, (s.onNewLine ds).tokens.2)

variable {s u : TokenStream} {ds : List Char}

theorem onNewLine_eq (hend : s.position.past s.rest = u.position.past u.rest)
    (hlast : s.tokens.2 = u.tokens.2) (ds : List Char) : s.onNewLine ds = u.onNewLine ds := by
  rw [onNewLine, onNewLine, hend, hlast]

/-- Line feeds that come next give nothing, so the text after them can as well be read alone. -/
theorem next_extended_of_newlines {l : Lexeme.Placed} {rest : List Char}
    (hsome : Lexeme.next? s.position s.rest = some (l, rest))
    (hl : l.lexeme.shape = .newlines) (ds : List Char) :
    (s.extended ds).next = ((s.after l rest).extended ds).next := by
  obtain ⟨gap, c, more, hgap, hrest, hstart, hmunch⟩ := Lexeme.exists_gap_of_next? hsome
  have hproper := Lexeme.proper_munch c more
  rw [hmunch, Lexeme.Proper, hl] at hproper
  have hskipped : ∀ d ∈ gap ++ l.lexeme.text, Lexeme.isBlank d = true ∨ d = '\n' := by
    intro d hd
    rcases List.mem_append.mp hd with hd | hd
    · exact Or.inl (hgap d hd)
    · exact Or.inr (hproper d hd)
  have hwhole : (s.extended ds).rest = gap ++ l.lexeme.text ++ (rest ++ ds) := by
    simp [extended, hrest]
  have hplace : l.stop = s.position.past (gap ++ l.lexeme.text) := by
    rw [Position.past_append, ← hstart, Lexeme.Placed.stop]
  rw [next_of_append hskipped hwhole, after, extended, extended, hplace]

/-- At the end of what is left there is nothing more to read than on the new line. -/
theorem ReadsApart.of_none (hnone : Lexeme.next? s.position s.rest = none) (ds : List Char) :
    s.ReadsApart ds := by
  have hskipped : ∀ c ∈ s.rest ++ ['\n'], Lexeme.isBlank c = true ∨ c = '\n' := by
    intro c hc
    rcases List.mem_append.mp hc with hc | hc
    · exact Or.inl (Lexeme.forall_isBlank_of_next? hnone c hc)
    · exact Or.inr (List.mem_singleton.mp hc)
  have hwhole : (s.extended ('\n' :: ds)).rest = s.rest ++ ['\n'] ++ ds := by simp [extended]
  have hs : s.tokens = ([], s.drained) := tokens_of_next_none (next_of_none hnone)
  rw [ReadsApart, tokens_of_next_eq (next_of_append hskipped hwhole), Position.past_append,
    onNewLine, hs]
  rfl

/-- A lexeme that gives no token leaves a stream that goes on alike. -/
theorem ReadsApart.of_next_eq (h : u.ReadsApart ds)
    (hend : u.position.past u.rest = s.position.past s.rest) (hnext : s.next = u.next)
    (hwhole : (s.extended ('\n' :: ds)).next = (u.extended ('\n' :: ds)).next) :
    s.ReadsApart ds := by
  have hs : s.tokens = u.tokens := tokens_of_next_eq hnext
  rw [ReadsApart, tokens_of_next_eq hwhole, hs, onNewLine_eq hend.symm (congrArg Prod.snd hs)]
  exact h

/-- A token comes before all that is read later. -/
theorem ReadsApart.of_token {t : Token} (h : u.ReadsApart ds)
    (hend : u.position.past u.rest = s.position.past s.rest) (hnext : s.next = (some t, u))
    (hwhole : (s.extended ('\n' :: ds)).next = (some t, u.extended ('\n' :: ds))) :
    s.ReadsApart ds := by
  have hs := tokens_of_next_some hnext
  have hlater : s.onNewLine ds = u.onNewLine ds := onNewLine_eq hend.symm (by rw [hs]) ds
  rw [ReadsApart, tokens_of_next_some hwhole, hs, hlater]
  exact congrArg (fun r => (t :: r.1, r.2)) h

/-- A line feed cuts what is left in two that are read one after the other. -/
theorem readsApart (s : TokenStream) (ds : List Char) : s.ReadsApart ds := by
  generalize hp : s.position = p
  generalize hcs : s.rest = cs
  fun_induction Lexeme.scan p cs generalizing s with
  | case1 p cs hnone =>
    subst hp hcs
    exact .of_none hnone ds
  | case2 p cs l rest hsome ih =>
    subst hp hcs
    have hend := Lexeme.past_of_next? hsome
    by_cases hshape : l.lexeme.shape = .newlines
    · have hl : Lexeme.read s.lookback l = .nothing := by
        unfold Lexeme.read
        rw [hshape]
      exact (ih (s.after l rest) rfl rfl).of_next_eq hend (next_of_nothing hsome hl)
        (next_extended_of_newlines hsome hshape _)
    -- Any other lexeme is taken and read the same with a new line behind.
    have hwhole : Lexeme.next? (s.extended ('\n' :: ds)).position (s.extended ('\n' :: ds)).rest =
        some (l, rest ++ '\n' :: ds) := Lexeme.next?_append_newline hsome hshape ds
    cases hl : Lexeme.read s.lookback l with
    | nothing =>
      exact (ih (s.after l rest) rfl rfl).of_next_eq hend (next_of_nothing hsome hl)
        (next_of_nothing hwhole hl)
    | problem d =>
      exact (ih ((s.after l rest).report d) rfl rfl).of_next_eq hend (next_of_problem hsome hl)
        (next_of_problem hwhole hl)
    | token t =>
      exact (ih { s.after l rest with lookback := some t.kind } rfl rfl).of_token hend
        (next_of_token hsome hl) (next_of_token hwhole hl)

end TokenStream

/-- What is read on a new line is what is read alone, moved down, except that the last token before
it may ask for a wildcard. -/
theorem TokenStream.tokens_onNewLine (cs ds : List Char) :
    let first : TokenStream := ⟨cs, Position.start, none, []⟩
    let alone : TokenStream := ⟨ds, Position.start, none, []⟩
    let later := alone.tokens.1.map (Token.below (1 + cs.count '\n'))
    (first.onNewLine ds).tokens.1 =
        (if first.tokens.1.getLast?.any Token.asksForWildcard then
          later.modifyHead (Token.withStar .wildcard)
        else later) ∧
      (first.onNewLine ds).tokens.2.diagnostics = first.tokens.2.diagnostics ++
        alone.tokens.2.diagnostics.map (Diagnostic.below (1 + cs.count '\n')) := by
  intro first alone later
  have hplace : (Position.start.past cs).step '\n' = Position.start.past (cs ++ ['\n']) := by
    rw [Position.past_append]
    rfl
  obtain ⟨htokens, hdiagnostics⟩ := tokens_behind (cs ++ ['\n']) ds first.tokens.2.lookback
    first.tokens.2.diagnostics
  obtain ⟨hlooking, hsame⟩ := alone.tokens_withLookback first.tokens.2.lookback
  rw [← hplace] at htokens hdiagnostics
  refine ⟨htokens.trans ?_, hdiagnostics.trans ?_⟩
  · have hkind : Lexeme.starKind first.tokens.2.lookback =
        if first.tokens.1.getLast?.any Token.asksForWildcard then .wildcard else .times := by
      rw [lookback_tokens, Option.or_none, Lexeme.starKind_map_kind]
    have hforgetful := (alone.tokens_withLookback none).1
    rw [funext (Token.behind_concat_newline cs), hlooking, hkind]
    split
    · exact Token.map_below_modifyHead _ _ _
    · exact congrArg (List.map _) hforgetful.symm
  · rw [funext (Diagnostic.behind_concat_newline cs), hsame]

/-- Two texts with a line feed between them give what the first gives and then what the second
gives, that many lines further down. If the first ends with a token that asks for a wildcard, a
product sign at the start of the second is one. -/
theorem tokenize_append_newline (a b : String) :
    let lines := 1 + a.toList.count '\n'
    let later := (tokenize b).tokens.map (Token.below lines)
    (tokenize (a ++ "\n" ++ b)).tokens = (tokenize a).tokens ++
        (if (tokenize a).tokens.getLast?.any Token.asksForWildcard then
          later.modifyHead (Token.withStar .wildcard)
        else later) ∧
      (tokenize (a ++ "\n" ++ b)).diagnostics =
        (tokenize a).diagnostics ++ (tokenize b).diagnostics.map (Diagnostic.below lines) := by
  intro lines later
  have hwhole : (a ++ "\n" ++ b).toList = a.toList ++ '\n' :: b.toList := by simp
  have hcut := TokenStream.readsApart ⟨a.toList, Position.start, none, []⟩ b.toList
  obtain ⟨htokens, hdiagnostics⟩ := TokenStream.tokens_onNewLine a.toList b.toList
  rw [TokenStream.ReadsApart, TokenStream.extended] at hcut
  simp only [tokenize, TokenStream.ofString_eq, hwhole, later]
  rw [hcut]
  exact ⟨congrArg _ htokens, hdiagnostics⟩

end AccessPolicy
