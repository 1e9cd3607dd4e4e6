import AccessPolicy.Proofs.Grammar.Parse

/-!
# Syntax errors are exact

A syntax error of a piece is reported right after the longest start of the piece that is the
start of some declaration, and the leaves it lists are those that can come next there
(`SyntaxError.Exact`). This holds of the error that stops the parser and of every error it
collects when it recovers (`Program.exists_exact_of_syntaxError`).

Readers say as much about themselves (`Outcome.Exact`). What is added here is the end of the
declaration, which is listed after a complete one, and the place, for which the tokens after
the piece count as well.
-/

namespace AccessPolicy

open Grammar

/-! ## What can come next -/

namespace Declaration

/-- The tokens are the start of a declaration. -/
def Begins (q : List Token) : Prop :=
  ∃ ts d, Derives (q ++ ts) d

/-- What can come after the tokens `q` in a declaration : a leaf that some derivation goes on
with once its first leaves have read `q`, or the end if `q` is a declaration. -/
inductive CanFollow (q : List Token) : Expectation → Prop
  | leaf {s u : List Item} {i : Item} {d : Declaration} (hs : Item.tokens s = q)
    (h : Declared (s ++ i :: u) d) : CanFollow q i.leaf.expectation
  | ending {d : Declaration} (h : Derives q d) : CanFollow q .endOfDeclaration

theorem begins_iff {q : List Token} : Begins q ↔ (Declared.afterAll q).Possible := by
  refine ⟨?_, ?_⟩
  · rintro ⟨ts, d, s, hs, h⟩
    obtain ⟨u, v, rfl, hu, hv⟩ := List.map_eq_append_iff.mp hs
    exact ⟨v, d, Phrase.afterAll_iff.mpr ⟨u, hu, h⟩⟩
  · rintro ⟨v, d, h⟩
    obtain ⟨u, rfl, hu⟩ := Phrase.afterAll_iff.mp h
    exact ⟨Item.tokens v, d, u ++ v, List.map_append, hu⟩

theorem next_iff {q : List Token} {x : Expectation} : (Declared.afterAll q).Next x ↔
    ∃ s i u d, Item.tokens s = q ∧ Declared (s ++ i :: u) d ∧ i.leaf.expectation = x := by
  refine ⟨?_, ?_⟩
  · rintro ⟨i, u, d, h, hx⟩
    obtain ⟨s, hs, h⟩ := Phrase.afterAll_iff.mp h
    exact ⟨s, i, u, d, hs, h, hx⟩
  · rintro ⟨s, i, u, d, hs, h, hx⟩
    exact ⟨i, u, d, Phrase.afterAll_iff.mpr ⟨s, hs, h⟩, hx⟩

theorem canFollow_iff {q : List Token} {x : Expectation} : CanFollow q x ↔
    (Declared.afterAll q).Next x ∨ x = .endOfDeclaration ∧ ∃ d, Derives q d := by
  rw [next_iff]
  refine ⟨?_, ?_⟩
  · rintro (⟨hs, h⟩ | h)
    · exact Or.inl ⟨_, _, _, _, hs, h, rfl⟩
    · exact Or.inr ⟨rfl, _, h⟩
  · rintro (⟨s, i, u, d, hs, h, rfl⟩ | ⟨rfl, d, h⟩)
    · exact .leaf hs h
    · exact .ending h

/-- The start of a declaration can always be carried on, or ended. -/
theorem exists_canFollow {q : List Token} (h : Begins q) : ∃ x, CanFollow q x := by
  obtain ⟨v, d, h⟩ := begins_iff.mp h
  cases v with
  | nil => exact ⟨_, .ending (derives_iff.mpr h)⟩
  | cons i u => exact ⟨_, canFollow_iff.mpr (Or.inl ⟨i, u, d, h, rfl⟩)⟩

theorem Begins.of_prefix {q q' : List Token} (h : Begins q') (hq : q <+: q') : Begins q := by
  obtain ⟨v, rfl⟩ := hq
  obtain ⟨ts, d, h⟩ := h
  exact ⟨v ++ ts, d, by rwa [← List.append_assoc]⟩

/-- A piece is refused after its longest start that is the start of a declaration, with what
can come next. -/
theorem exists_of_wholeDeclaration_stuck {ts rest : List Token} {expected : List Expectation}
    (h : Reader.wholeDeclaration ts = .stuck rest expected) :
    ∃ q, ts = q ++ rest ∧ Begins q ∧ (∀ t ∈ rest.head?, ¬ Begins (q ++ [t])) ∧
      ∀ x, x ∈ expected ↔ CanFollow q x := by
  have hexact := exact_declaration ts
  have hblocked : ∀ {q : List Token} {t : Token},
      ¬ ((Declared.afterAll q).after t).Possible → ¬ Begins (q ++ [t]) := by
    intro q t ht hbegins
    apply ht
    have := begins_iff.mp hbegins
    rwa [Phrase.afterAll, List.foldl_append] at this
  cases ho : Reader.declaration ts with
  | stuck rest' expected' =>
    rw [wholeDeclaration_of_stuck ho] at h
    obtain ⟨rfl, rfl⟩ := Outcome.stuck.inj h
    obtain ⟨q, hq, hpossible, hvalue, hnext, hrest⟩ := (ho ▸ hexact).of_stuck
    refine ⟨q, hq, begins_iff.mpr hpossible, fun t ht => hblocked (hrest t ht), fun x => ?_⟩
    rw [hnext, canFollow_iff]
    refine ⟨Or.inl, ?_⟩
    rintro (hx | ⟨-, d, hd⟩)
    · exact hx
    · exact absurd (derives_iff.mp hd) (hvalue d)
  | done d rest' also =>
    cases rest' with
    | nil =>
      obtain ⟨also', hwhole⟩ := wholeDeclaration_of_done ho
      simp [hwhole] at h
    | cons t rest' =>
      rw [wholeDeclaration_of_done_cons ho] at h
      obtain ⟨rfl, rfl⟩ := Outcome.stuck.inj h
      obtain ⟨q, hq, hvalue, hnext, hrest⟩ := (ho ▸ hexact).of_done
      have hd : Derives q d := derives_iff.mpr ((hvalue d).mpr rfl)
      refine ⟨q, hq, ⟨[], d, by rwa [List.append_nil]⟩, fun t ht => hblocked (hrest t ht),
        fun x => ?_⟩
      rw [List.mem_append, hnext, List.mem_singleton, canFollow_iff]
      exact or_congr_right ⟨fun hx => ⟨hx, d, hd⟩, And.left⟩

end Declaration

/-! ## The order of expectations -/

theorem Token.Kind.getElem?_all_rank (k : Token.Kind) : Token.Kind.all[k.rank]? = some k := by
  cases k <;> rfl

namespace Expectation

theorem le_total (x y : Expectation) : (x.le y || y.le x) = true := by
  cases x <;> cases y <;> simp [le, Nat.le_total, String.le_total]

theorem le_trans (x y z : Expectation) (hxy : x.le y = true) (hyz : y.le z = true) :
    x.le z = true := by
  cases x <;> cases y <;> cases z <;> simp_all [le]
  · exact Nat.le_trans hxy hyz
  · exact String.le_trans hxy hyz

theorem le_antisymm {x y : Expectation} (hxy : x.le y = true) (hyx : y.le x = true) : x = y := by
  cases x <;> cases y <;> simp_all [le]
  · next j k =>
    have hrank : j.rank = k.rank := Nat.le_antisymm hxy hyx
    have hj := Token.Kind.getElem?_all_rank j
    rw [hrank, Token.Kind.getElem?_all_rank] at hj
    exact (Option.some.inj hj).symm
  · exact String.le_antisymm hxy hyx

theorem nodup_eraseDups : ∀ es : List Expectation, es.eraseDups.Nodup
  | [] => List.nodup_nil
  | e :: es => by
    rw [List.eraseDups_cons, List.nodup_cons, List.mem_eraseDups]
    exact ⟨by simp, nodup_eraseDups _⟩
termination_by es => es.length
decreasing_by exact Nat.lt_succ_of_le (List.length_filter_le _ _)

theorem mem_collect {es : List Expectation} {x : Expectation} : x ∈ collect es ↔ x ∈ es := by
  rw [collect, sort, List.mem_mergeSort, List.mem_eraseDups]

/-- Expectations are listed strictly in order. -/
theorem pairwise_collect (es : List Expectation) :
    (collect es).Pairwise fun x y => y.le x = false := by
  have hsorted := List.pairwise_mergeSort le_trans le_total es.eraseDups
  have hnodup : (collect es).Nodup :=
    (List.mergeSort_perm es.eraseDups le).nodup_iff.mpr (nodup_eraseDups es)
  refine (hsorted.and hnodup).imp ?_
  rintro x y ⟨hxy, hne⟩
  rw [Bool.eq_false_iff]
  exact fun hyx => hne (le_antisymm hxy hyx)

end Expectation

/-! ## Pieces and their errors -/

/-- One of the pieces into which the keywords that open declarations cut some tokens. -/
structure Program.Piece (tokens : List Token) where
  /-- The tokens before the piece. -/
  before : List Token
  /-- The first token of the piece. -/
  first : Token
  /-- The other tokens of the piece. -/
  body : List Token
  /-- The tokens after the piece. -/
  after : List Token
  append : before ++ (first :: body ++ after) = tokens
  opens : before = [] ∨ continues first = false
  holds : ∀ t ∈ body, continues t = true
  closes : ∀ t ∈ after.head?, continues t = false

/-- The tokens of a piece. -/
def Program.Piece.tokens {ts : List Token} (c : Piece ts) : List Token :=
  c.first :: c.body

/-- The error `e` says exactly how far the piece `c` of the tokens can be read : up to the end
of its longest start `q` that is the start of a declaration. -/
structure SyntaxError.Exact {tokens : List Token} (e : SyntaxError) (c : Program.Piece tokens)
    (q : List Token) : Prop where
  isPrefix : q <+: c.tokens
  begins : Declaration.Begins q
  longest : ∀ q', q' <+: c.tokens → Declaration.Begins q' → q' <+: q
  found : e.found = tokens[c.before.length + q.length]?
  place : ∃ t, e.found.or tokens.getLast? = some t ∧ e.line = t.line ∧ e.column = t.column
  expected_ne_nil : e.expected ≠ []
  sorted : e.expected.Pairwise fun x y => y.le x = false
  mem_expected_iff : ∀ x, x ∈ e.expected ↔ Declaration.CanFollow q x

/-- The start of a piece that is the start of a declaration is no longer than one after which
every start of the piece is refused. -/
theorem Declaration.Begins.isPrefix_of_blocked {q q' rest : List Token} (hq : Begins q')
    (hstart : q' <+: q ++ rest) (hblocked : ∀ t ∈ rest.head?, ¬ Begins (q ++ [t])) :
    q' <+: q := by
  rcases List.prefix_or_prefix_of_prefix hstart (List.prefix_append q rest) with h | ⟨u, rfl⟩
  · exact h
  · rw [List.prefix_append_right_inj] at hstart
    cases u with
    | nil => simp
    | cons t u =>
      obtain ⟨v, rfl⟩ := hstart
      exact absurd (hq.of_prefix ⟨u, by simp⟩) (hblocked t rfl)

/-- The place of an error is a token : the one that was found, or the last. -/
theorem Program.Piece.exists_place {tokens : List Token} (c : Program.Piece tokens)
    (rest : List Token) (expected : List Expectation) :
    ∃ t, (rest.head?.or c.after.head?).or tokens.getLast? = some t ∧
      (SyntaxError.ofStuck c.first c.body rest expected c.after.head?).line = t.line ∧
      (SyntaxError.ofStuck c.first c.body rest expected c.after.head?).column = t.column := by
  cases hfound : rest.head?.or c.after.head? with
  | some t => exact ⟨t, by simp [SyntaxError.ofStuck, hfound]⟩
  | none =>
    have hafter : c.after = [] := by
      rw [Option.or_eq_none_iff] at hfound
      exact List.head?_eq_none_iff.mp hfound.2
    have hlast : (c.before ++ (c.first :: c.body ++ c.after)).getLast? =
        some ((c.first :: c.body).getLast (List.cons_ne_nil _ _)) := by
      rw [hafter, List.append_nil, List.getLast?_append,
        List.getLast?_eq_some_getLast (List.cons_ne_nil _ _)]
      rfl
    rw [c.append] at hlast
    exact ⟨_, hlast, by simp [SyntaxError.ofStuck, hfound]⟩

/-- A piece that cannot be read gives an error that says how far it can be. -/
theorem Program.Piece.exists_exact {tokens : List Token} (c : Program.Piece tokens)
    {e : SyntaxError} (h : Declaration.read c.first c.body c.after.head? = .error e) :
    ∃ q, e.Exact c q := by
  rw [Declaration.read] at h
  cases ho : Reader.wholeDeclaration (c.first :: c.body) with
  | done d rest also => simp [ho] at h
  | stuck rest expected =>
    obtain ⟨q, hq, hbegins, hblocked, hexpected⟩ :=
      Declaration.exists_of_wholeDeclaration_stuck ho
    obtain rfl : SyntaxError.ofStuck c.first c.body rest expected c.after.head? = e := by
      simpa [ho] using h
    have htokens : tokens = (c.before ++ q) ++ (rest ++ c.after) := by
      have happend := c.append
      rw [hq] at happend
      simpa using happend.symm
    refine ⟨q, ⟨⟨rest, hq.symm⟩, hbegins, fun q' hq' hbegins' => ?_, ?_, ?_, ?_, ?_, ?_⟩⟩
    · exact hbegins'.isPrefix_of_blocked (hq ▸ hq') hblocked
    · have hfound : ((c.before ++ q) ++ (rest ++ c.after))[(c.before ++ q).length]? =
          rest.head?.or c.after.head? := by
        rw [List.getElem?_append_right (Nat.le_refl _), Nat.sub_self, ← List.head?_eq_getElem?,
          List.head?_append]
      rw [← htokens, List.length_append] at hfound
      exact hfound.symm
    · exact c.exists_place rest expected
    · obtain ⟨x, hx⟩ := Declaration.exists_canFollow hbegins
      exact List.ne_nil_of_mem (Expectation.mem_collect.mpr ((hexpected x).mpr hx))
    · exact Expectation.pairwise_collect expected
    · exact fun x => Expectation.mem_collect.trans (hexpected x)

/-! ## The errors of a parser -/

namespace Program

theorem not_continues_of_mem_head?_dropWhile {ts : List Token} :
    ∀ t ∈ (ts.dropWhile continues).head?, continues t = false := by
  intro t ht
  have := List.head?_dropWhile_not continues ts
  simpa [Option.mem_def.mp ht] using this

/-- What is read is read from a piece. -/
theorem exists_piece_of_mem_pieces (ts : List Token) {before : List Token}
    {r : Except SyntaxError Declaration}
    (hopens : before = [] ∨ ∀ t ∈ ts.head?, continues t = false) (h : r ∈ pieces ts) :
    ∃ c : Piece (before ++ ts), Declaration.read c.first c.body c.after.head? = r := by
  fun_induction pieces ts generalizing before with
  | case1 => simp at h
  | case2 t ts ih =>
    rcases List.mem_cons.mp h with rfl | h
    · refine ⟨⟨before, t, ts.takeWhile continues, ts.dropWhile continues, ?_, ?_, ?_, ?_⟩, rfl⟩
      · rw [List.cons_append, List.takeWhile_append_dropWhile]
      · exact hopens.imp_right fun h => h t rfl
      · exact fun b hb => List.all_eq_true.mp List.all_takeWhile b hb
      · exact not_continues_of_mem_head?_dropWhile
    · have happend : (before ++ t :: ts.takeWhile continues) ++ ts.dropWhile continues =
          before ++ t :: ts := by
        rw [List.append_assoc, List.cons_append, List.takeWhile_append_dropWhile]
      rw [← happend]
      exact ih (Or.inr not_continues_of_mem_head?_dropWhile) h

theorem mem_of_mapM_id_eq_error {ε α : Type} {rs : List (Except ε α)} {e : ε}
    (h : rs.mapM id = .error e) : .error e ∈ rs := by
  induction rs with
  | nil => simp [pure, Except.pure] at h
  | cons r rs ih =>
    rw [List.mapM_cons] at h
    cases r with
    | error e' =>
      obtain rfl : e' = e := by simpa [bind, Except.bind] using h
      exact List.mem_cons_self
    | ok a =>
      cases hrs : rs.mapM id with
      | ok as => simp [hrs, bind, Except.bind, pure, Except.pure] at h
      | error e' =>
        obtain rfl : e' = e := by simpa [hrs, bind, Except.bind] using h
        exact List.mem_cons_of_mem _ (ih hrs)

theorem mem_pieces_of_parse_eq_error {tokens : List Token} {e : SyntaxError}
    (h : parse tokens = .error e) : .error e ∈ pieces tokens := by
  rw [parse] at h
  cases hm : (pieces tokens).mapM id with
  | ok ds => simp [hm, Functor.map, Except.map] at h
  | error e' =>
    obtain rfl : e' = e := by simpa [hm, Functor.map, Except.map] using h
    exact mem_of_mapM_id_eq_error hm

theorem mem_pieces_of_mem_errors {tokens : List Token} {e : SyntaxError}
    (h : e ∈ (recover tokens).errors) : .error e ∈ pieces tokens := by
  obtain ⟨r, hr, hre⟩ := List.mem_filterMap.mp h
  cases r with
  | ok d => simp at hre
  | error e' =>
    obtain rfl : e' = e := by simpa using hre
    exact hr

/-- Every syntax error of some tokens is the error of one of their pieces, and says exactly
how far that piece can be read and what can come next. -/
theorem exists_exact_of_syntaxError {tokens : List Token} {e : SyntaxError}
    (h : parse tokens = .error e ∨ e ∈ (recover tokens).errors) :
    ∃ c : Piece tokens, Declaration.read c.first c.body c.after.head? = .error e ∧
      ∃ q, e.Exact c q := by
  have hmem : .error e ∈ pieces tokens :=
    h.elim mem_pieces_of_parse_eq_error mem_pieces_of_mem_errors
  obtain ⟨c, hc⟩ := exists_piece_of_mem_pieces tokens (Or.inl rfl) hmem
  exact ⟨c, hc, c.exists_exact hc⟩

/-- Tokens of a policy that a role cuts off after the first name in a parenthesis. -/
def cutOff : List Token :=
  [⟨.allow, .text "ALLOW", 1, 1⟩, ⟨.action, .text "ACTION", 1, 7⟩, ⟨.colon, .text ":", 1, 13⟩,
    ⟨.identifier, .text "x", 1, 15⟩, ⟨.on, .text "ON", 1, 17⟩,
    ⟨.identifier, .text "resource", 1, 20⟩, ⟨.colon, .text ":", 1, 28⟩,
    ⟨.identifier, .text "R", 1, 30⟩, ⟨.guard, .text "IF", 1, 32⟩, ⟨.lparen, .text "(", 1, 35⟩,
    ⟨.lparen, .text "(", 1, 36⟩, ⟨.identifier, .text "n", 1, 37⟩, ⟨.role, .text "ROLE", 2, 1⟩]

/-- What could follow the name, in the order in which it is tried. -/
def cutOffLeaves : List Expectation :=
  [.kind .dot, .kind .times, .kind .divide, .kind .plus, .kind .minus, .kind .rparen]

/-- The error of the policy. The name could be that of an object, an operator could follow it, or
the parenthesis could end. -/
def cutOffError : SyntaxError :=
  ⟨[.kind .plus, .kind .minus, .kind .times, .kind .divide, .kind .rparen, .kind .dot],
    some ⟨.role, .text "ROLE", 2, 1⟩, 2, 1, "policy definition"⟩

theorem exists_exact_cutOffError : parse cutOff = .error cutOffError ∧
    ∃ c : Piece cutOff, Declaration.read c.first c.body c.after.head? = .error cutOffError ∧
      ∃ q, cutOffError.Exact c q := by
  have hdistinct : cutOffLeaves.eraseDups = cutOffLeaves := by decide +kernel
  have hperm : (Expectation.collect cutOffLeaves).Perm cutOffError.expected := by
    rw [Expectation.collect, hdistinct]
    exact (List.mergeSort_perm _ _).trans (by decide)
  have hleaves : Expectation.collect cutOffLeaves = cutOffError.expected := by
    refine hperm.eq_of_pairwise (fun x y _ _ hxy hyx => ?_) (Expectation.pairwise_collect _)
      (by decide)
    simpa [hxy, hyx] using Expectation.le_total x y
  have h : parse cutOff = .error { cutOffError with expected := cutOffError.expected } := by
    rw [← hleaves]
    with_unfolding_all rfl
  exact ⟨h, exists_exact_of_syntaxError (Or.inl h)⟩

end Program

end AccessPolicy
