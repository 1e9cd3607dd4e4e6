import AccessPolicy.Proofs.Compilation.Caret
import AccessPolicy.Proofs.Analysis.Order
import AccessPolicy.Proofs.Source.Order

/-!
# Diagnostics in order

Diagnostics come stage by stage. Those about characters stand at lexemes, each behind the one before
it. Pieces of the tokens that cannot be read are reported from left to right as well, each at a
token of its own or at the first of the next piece (`Declaration.exists_place_of_read_eq_error`).
The next piece can be reported at that token too if it is the last of all, so two syntax errors in a
row may have the same place, but none stands before an earlier one
(`Program.pairwise_place_pieces`).

Problems of meaning have no column, and the line of a node of the program
(`Analyzer.exists_node_of_mem_problems`).
-/

namespace AccessPolicy

/-! ## Syntax errors -/

/-- A piece that cannot be read is reported at one of its tokens or at the token behind it. -/
theorem Declaration.exists_place_of_read_eq_error {first : Token} {body : List Token}
    {follow : Option Token} {e : SyntaxError} (h : Declaration.read first body follow = .error e) :
    ∃ t ∈ first :: body ++ follow.toList, e.line = t.line ∧ e.column = t.column := by
  rw [Declaration.read] at h
  cases ho : Reader.wholeDeclaration (first :: body) with
  | done d rest also => simp [ho] at h
  | stuck rest expected =>
    obtain rfl : SyntaxError.ofStuck first body rest expected follow = e := by simpa [ho] using h
    obtain ⟨q, hq, -⟩ := exists_of_wholeDeclaration_stuck ho
    cases rest with
    | cons t rest => exact ⟨t, by simp [hq], rfl, rfl⟩
    | nil =>
      -- The tokens of the piece ran out : the next token counts, or else the last.
      cases follow with
      | some t => exact ⟨t, by simp, rfl, rfl⟩
      | none => exact ⟨_, List.mem_append_left _ (List.getLast_mem _), rfl, rfl⟩

namespace Program

theorem Piece.mem_of_mem {tokens : List Token} (c : Piece tokens) {t : Token}
    (h : t ∈ c.tokens ++ c.after.head?.toList) : t ∈ tokens := by
  rw [← c.append]
  refine List.mem_append_right _ ?_
  rcases List.mem_append.mp h with h | h
  · exact List.mem_append_left _ h
  · exact List.mem_append_right _ (List.mem_of_mem_head? (Option.mem_toList.mp h))

theorem exists_place_of_mem_pieces {tokens : List Token} {e : SyntaxError}
    (h : .error e ∈ pieces tokens) : ∃ t ∈ tokens, e.line = t.line ∧ e.column = t.column := by
  obtain ⟨c, hc⟩ := exists_piece_of_mem_pieces tokens (Or.inl rfl) h
  obtain ⟨t, ht, hplace⟩ := Declaration.exists_place_of_read_eq_error hc
  exact ⟨t, c.mem_of_mem ht, hplace⟩

/-- No syntax error stands before an earlier one. -/
theorem pairwise_place_pieces {tokens : List Token}
    (h : tokens.Pairwise fun t u => t.place < u.place) :
    ((pieces tokens).filterMap errorOf?).Pairwise
      fun e f => e.diagnostic.place ≤ f.diagnostic.place := by
  fun_induction pieces tokens with
  | case1 => exact .nil
  | case2 t ts ih =>
    have hspan : t :: ts.takeWhile continues ++ ts.dropWhile continues = t :: ts := by
      rw [List.cons_append, List.takeWhile_append_dropWhile]
    rw [← hspan] at h
    obtain ⟨-, hmore, hbehind⟩ := List.pairwise_append.mp h
    cases hread : Declaration.read t (ts.takeWhile continues) (ts.dropWhile continues).head? with
    | ok d => exact ih hmore
    | error e =>
      refine List.pairwise_cons.mpr ⟨fun f hf => ?_, ih hmore⟩
      rw [← errors_recover] at hf
      obtain ⟨u, hu, hfline, hfcolumn⟩ := exists_place_of_mem_pieces (mem_pieces_of_mem_errors hf)
      obtain ⟨v, hv, heline, hecolumn⟩ := Declaration.exists_place_of_read_eq_error hread
      have he : e.diagnostic.place = v.place := congrArg toLex (Prod.ext heline hecolumn)
      have hf : f.diagnostic.place = u.place := congrArg toLex (Prod.ext hfline hfcolumn)
      rw [he, hf]
      rcases List.mem_append.mp hv with hv | hv
      · exact (hbehind v hv u hu).le
      · -- The first of the tokens behind the piece is before all others of them.
        obtain ⟨more, hhead⟩ := List.head?_eq_some_iff.mp (Option.mem_toList.mp hv)
        rw [hhead] at hu hmore
        rcases List.mem_cons.mp hu with rfl | hu
        · exact le_refl _
        · exact (List.rel_of_pairwise_cons hmore hu).le

end Program

/-- A syntax error belongs to a piece and is at one of its tokens or at the token behind it. -/
theorem Program.exists_piece_of_mem_errors {recovering : Bool} {tokens : List Token}
    {e : SyntaxError} (h : e ∈ (ofTokens recovering tokens).errors) :
    ∃ k : Piece tokens, Declaration.read k.first k.body k.after.head? = .error e ∧
      ∃ t ∈ k.tokens ++ k.after.head?.toList, e.line = t.line ∧ e.column = t.column := by
  have hmem := (errors_ofTokens_sublist recovering tokens).subset h
  obtain ⟨k, hk⟩ := exists_piece_of_mem_pieces tokens (Or.inl rfl) (mem_pieces_of_mem_errors hmem)
  exact ⟨k, hk, Declaration.exists_place_of_read_eq_error hk⟩

theorem pairwise_place_errors (source : String) (recovering : Bool) :
    ((Program.ofTokens recovering (tokenize source).tokens).errors.map
      SyntaxError.diagnostic).Pairwise fun d e => d.place ≤ e.place := by
  have htokens : (tokenize source).tokens.Pairwise fun t u => t.place < u.place :=
    (TokenStream.pairwise_place source 0).1
  have hall := Program.pairwise_place_pieces htokens
  rw [← Program.errors_recover] at hall
  exact List.pairwise_map.mpr (hall.sublist (Program.errors_ofTokens_sublist recovering _))

-- The first role lacks a name at the keyword of the second, and the second at the end of the text.
example : (Program.recover (tokenize "ROLE ROLE").tokens).errors.map
    (fun e => (e.line, e.column)) = [(1, 6), (1, 6)] := by decide +kernel

/-! ## Problems of meaning -/

theorem Node.ofDeclaration_mem_walk {p : Program} {d : Declaration} (h : d ∈ p.declarations) :
    ofDeclaration d ∈ (Node.program p).walk := by
  rw [walk_eq]
  refine List.mem_cons_of_mem _ (List.mem_flatMap.mpr ⟨_, List.mem_map_of_mem h, ?_⟩)
  rw [walk_eq]
  exact List.mem_cons_self

theorem Node.line_ofDeclaration (d : Declaration) : (ofDeclaration d).line = d.line := by
  cases d <;> rfl

/-- Every problem is on the line of a node of the program. -/
theorem Analyzer.exists_node_of_mem_problems {z : Analyzer} {p : Program} {q : Problem}
    (h : q ∈ (z.analyze p).problems) : ∃ n ∈ (Node.program p).walk, q.line = n.line := by
  rw [problems_analyze, laterProblems, List.mem_append, List.mem_append] at h
  rcases h with h | h | h
  · obtain ⟨d, hd, kind, name, first, rfl⟩ := Symbols.exists_duplicate_of_mem_declareAll h
    exact ⟨_, Node.ofDeclaration_mem_walk hd, (Node.line_ofDeclaration d).symm⟩
  · obtain ⟨d, hd, hcheck⟩ := List.mem_filterMap.mp h
    obtain ⟨kind, name, suggestion, rfl⟩ := exists_undefined_of_checkReference hcheck
    exact ⟨_, Node.ofDeclaration_mem_walk hd, (Node.line_ofDeclaration d).symm⟩
  · obtain ⟨n, hn, hq⟩ := List.mem_flatMap.mp h
    exact ⟨n, hn, (of_mem_checkNode hq).2⟩

/-! ## All stages -/

theorem IsPlace.one_le {cs : List Char} {offset line column : Nat}
    (h : IsPlace cs offset line column) : 1 ≤ line ∧ 1 ≤ column := by
  obtain ⟨before, after, -, -, rfl, rfl⟩ := h
  exact ⟨Nat.le_add_right _ _, Nat.le_add_right _ _⟩

theorem one_le_place_of_mem_tokens {source : String} {t : Token}
    (h : t ∈ (tokenize source).tokens) : 1 ≤ t.line ∧ 1 ≤ t.column := by
  have hstands := TokenStream.standsIn_startingAt source 0
  obtain ⟨l, -, -, hplace⟩ := hstands.exists_lexeme_of_token h
  exact hplace.one_le

theorem one_le_place_of_mem_diagnostics {source : String} {d : Diagnostic}
    (h : d ∈ (tokenize source).diagnostics) : 1 ≤ d.line ∧ 1 ≤ d.column := by
  have hstands := TokenStream.standsIn_startingAt source 0
  obtain ⟨l, -, -, hplace, -⟩ := hstands.exists_lexeme_of_diagnostic rfl h
  exact hplace.one_le

/-- Diagnostics come stage by stage : about characters, about syntax, about meaning. The places of
the first strictly increase, and those of the second never decrease. Each of the second is the error
of a piece of the tokens, at a token of the piece or at the first of the next. So the diagnostics of
both have a line and a column. Those of the third have no column, and the line of a node of the
program. -/
theorem diagnostics_in_order (source : String) (o : Options) :
    let c := compile source o
    let lexical := c.diagnostics.filter fun d => d.kind.isLexical
    let syntactic := c.diagnostics.filter fun d => d.kind = .syntaxError
    let semantic := c.diagnostics.filter fun d => d.kind.isSemantic
    c.diagnostics = lexical ++ syntactic ++ semantic ∧
    lexical.Pairwise (fun d e => d.place < e.place) ∧
    syntactic.Pairwise (fun d e => d.place ≤ e.place) ∧
    (∀ d ∈ syntactic, ∃ (k : Program.Piece c.tokens) (e : SyntaxError),
      Declaration.read k.first k.body k.after.head? = .error e ∧ d = e.diagnostic ∧
        ∃ t ∈ k.tokens ++ k.after.head?.toList, d.line = t.line ∧ d.column = t.column) ∧
    (∀ d ∈ lexical ++ syntactic, 1 ≤ d.line ∧ 1 ≤ d.column) ∧
    ∀ d ∈ semantic, d.column = 0 ∧ ∃ n ∈ (Node.program c.program).walk, d.line = n.line := by
  intro c lexical syntactic semantic
  have hlexical : lexical = (tokenize source).diagnostics := filter_isLexical_compile source o
  have hsyntactic : syntactic =
      (Program.ofTokens o.recover c.tokens).errors.map SyntaxError.diagnostic :=
    filter_syntaxError_compile source o
  have hsemantic : semantic = (o.analyzer.analyze c.program).diagnostics :=
    filter_isSemantic_compile source o
  have hpieces : ∀ d ∈ syntactic, ∃ (k : Program.Piece c.tokens) (e : SyntaxError),
      Declaration.read k.first k.body k.after.head? = .error e ∧ d = e.diagnostic ∧
        ∃ t ∈ k.tokens ++ k.after.head?.toList, d.line = t.line ∧ d.column = t.column := by
    rw [hsyntactic]
    refine List.forall_mem_map.mpr fun e he => ?_
    obtain ⟨k, hk, hplace⟩ := Program.exists_piece_of_mem_errors he
    exact ⟨k, e, hk, rfl, hplace⟩
  refine ⟨?_, ?_, ?_, hpieces, List.forall_mem_append.mpr ⟨?_, fun d hd => ?_⟩, ?_⟩
  · rw [hlexical, hsyntactic, hsemantic]
    rfl
  · rw [hlexical]
    exact (TokenStream.pairwise_place source 0).2
  · rw [hsyntactic]
    exact pairwise_place_errors source o.recover
  · rw [hlexical]
    exact fun d hd => one_le_place_of_mem_diagnostics hd
  · obtain ⟨k, e, -, -, t, ht, hline, hcolumn⟩ := hpieces d hd
    rw [hline, hcolumn]
    exact one_le_place_of_mem_tokens (k.mem_of_mem ht)
  · rw [hsemantic]
    refine List.forall_mem_map.mpr fun q hq => ⟨rfl, ?_⟩
    exact Analyzer.exists_node_of_mem_problems hq

end AccessPolicy
