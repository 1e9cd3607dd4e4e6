import AccessPolicy.Proofs.Compilation.Stages
import AccessPolicy.Proofs.Source.Places

/-!
# Carets

A diagnostic with a column is shown over the line of the source it is on, with a caret below. If its
position is that of a lexeme, the caret is under the first character of the lexeme
(`Lexeme.Placed.Marked`). Diagnostics about characters have the position of the lexeme they are
about, and syntax errors that of the token they found. Both are exact
(`positions_exact_and_marked`).
-/

namespace AccessPolicy

/-- What is shown ends in a line of the source and a caret under the first character of a lexeme on
that line. Both lines are set in by two spaces. -/
def Lexeme.Placed.Marked (l : Placed) (source shown : String) : Prop :=
  ∃ (message : String) (row : List Char) (column : Nat) (c : Char),
    shown = message ++ "\n  " ++ String.ofList row ++ "\n  " ++
      String.ofList (List.replicate column ' ') ++ "^" ∧
    (textLines source.toList)[l.start.line - 1]? = some row ∧ '\n' ∉ row ∧
    l.lexeme.text.head? = some c ∧ row[column]? = some c

/-- The lexeme gives this after some token. -/
def Lexeme.Placed.ReadsAs (l : Placed) (r : Reading) : Prop :=
  ∃ before, read before l = r

/-! ## Where tokens and diagnostics are -/

namespace Lexeme

variable {source : String} {before rest : List Char} {l : Placed}

theorem Placed.ReadsAs.of_token {t : Token} (h : l.ReadsAs (.token t)) :
    l.lexeme.shape ≠ .newlines ∧ t.line = l.start.line ∧ t.column = l.start.column := by
  obtain ⟨lookback, hread⟩ := h
  have hgives := gives_read lookback l
  rw [hread] at hgives
  exact ⟨hgives.1, hgives.2.2⟩

theorem Placed.ReadsAs.of_problem {d : Diagnostic} (h : l.ReadsAs (.problem d)) :
    l.lexeme.shape ≠ .newlines ∧ d.line = l.start.line ∧ d.column = l.start.column := by
  obtain ⟨lookback, hread⟩ := h
  have hgives := gives_read lookback l
  rw [hread] at hgives
  refine ⟨fun hshape => ?_, hgives.2⟩
  obtain ⟨⟨shape, text⟩, start⟩ := l
  obtain rfl : shape = .newlines := hshape
  cases hgives.1

/-- The place of a lexeme is that of the text before it. -/
theorem isPlace_of_mem_scan (hsource : source.toList = before ++ rest)
    (h : l ∈ scan (Position.start.past before) rest) :
    IsPlace source.toList l.start.offset l.start.line l.start.column := by
  obtain ⟨-, -, ahead, behind, htext, hstart, -⟩ := (covers_scan before rest).placed l h
  rw [hsource, htext, hstart]
  exact Position.isPlace_start_past _ _

/-- A diagnostic at the position of a lexeme has its caret there. -/
theorem marked_of_mem_scan (hsource : source.toList = before ++ rest)
    (h : l ∈ scan (Position.start.past before) rest) (hshape : l.lexeme.shape ≠ .newlines)
    {d : Diagnostic} (hline : d.line = l.start.line) (hcolumn : d.column = l.start.column) :
    l.Marked source (d.render source) := by
  obtain ⟨-, -, ahead, behind, htext, hstart, -⟩ := (covers_scan before rest).placed l h
  obtain ⟨c, hc, hnewline, hreturn⟩ := exists_head_of_mem_scan h hshape
  obtain ⟨more, hmore⟩ := List.head?_eq_some_iff.mp hc
  obtain ⟨row, hshown, hwhole, hcaret⟩ :=
    exists_line_textLines ahead (more ++ behind) hnewline hreturn
  rw [← List.cons_append, ← hmore, ← htext, ← hsource] at hshown
  have hlineNumber : l.start.line - 1 = ahead.count '\n' := by
    rw [hstart, Position.line_start_past]
    omega
  have hcolumnNumber : l.start.column = 1 + (lastLine ahead).length := by
    rw [hstart, Position.column_start_past]
  refine ⟨d.text, row, (lastLine ahead).length, c, ?_, hlineNumber ▸ hshown, hwhole, hc, hcaret⟩
  have hsourceLine : d.sourceLine source = row := by
    rw [Diagnostic.sourceLine, hline, hlineNumber, hshown]
    rfl
  have hindent : d.column - 1 = (lastLine ahead).length := by omega
  rw [Diagnostic.render, if_neg (by omega), hsourceLine, hindent]

end Lexeme

namespace TokenStream

variable {source : String} {s : TokenStream}

theorem StandsIn.exists_lexeme_of_token (h : s.StandsIn source) {t : Token}
    (ht : t ∈ s.tokens.1) :
    ∃ l ∈ Lexeme.scan s.position s.rest, l.ReadsAs (.token t) ∧
      IsPlace source.toList l.start.offset t.line t.column := by
  obtain ⟨before, hsource, hposition⟩ := h
  obtain ⟨l, hl, hread⟩ := exists_lexeme_of_mem_tokens ht
  obtain ⟨-, hline, hcolumn⟩ := Lexeme.Placed.ReadsAs.of_token hread
  refine ⟨l, hl, hread, ?_⟩
  rw [hposition] at hl
  rw [hline, hcolumn]
  exact Lexeme.isPlace_of_mem_scan hsource hl

theorem StandsIn.exists_lexeme_of_diagnostic (h : s.StandsIn source) (hnone : s.diagnostics = [])
    {d : Diagnostic} (hd : d ∈ s.tokens.2.diagnostics) :
    ∃ l ∈ Lexeme.scan s.position s.rest, l.ReadsAs (.problem d) ∧
      IsPlace source.toList l.start.offset d.line d.column ∧
      l.Marked source (d.render source) := by
  obtain ⟨before, hsource, hposition⟩ := h
  obtain ⟨l, hl, hread⟩ := exists_lexeme_of_mem_diagnostics hnone hd
  obtain ⟨hshape, hline, hcolumn⟩ := Lexeme.Placed.ReadsAs.of_problem hread
  refine ⟨l, hl, hread, ?_⟩
  rw [hposition] at hl
  refine ⟨?_, Lexeme.marked_of_mem_scan hsource hl hshape hline hcolumn⟩
  rw [hline, hcolumn]
  exact Lexeme.isPlace_of_mem_scan hsource hl

end TokenStream

/-! ## Where syntax errors are -/

namespace Program

/-- A syntax error that has found a token is at that token. -/
theorem place_of_mem_errors_recover {tokens : List Token} {e : SyntaxError} {t : Token}
    (h : e ∈ (recover tokens).errors) (hfound : e.found = some t) :
    t ∈ tokens ∧ e.line = t.line ∧ e.column = t.column := by
  obtain ⟨c, hc⟩ := exists_piece_of_mem_pieces tokens (Or.inl rfl) (mem_pieces_of_mem_errors h)
  obtain ⟨q, hexact⟩ := c.exists_exact hc
  obtain ⟨u, hu, hline, hcolumn⟩ := hexact.place
  have htu : t = u := by simpa [hfound] using hu
  have hmem := hexact.found
  rw [hfound] at hmem
  exact ⟨List.mem_of_getElem? hmem.symm, htu ▸ hline, htu ▸ hcolumn⟩

end Program

/-- A syntax error that has found a token is shown with a caret under that token. -/
theorem SyntaxError.exists_marked {source : String} {recovering : Bool} {e : SyntaxError}
    {t : Token} (h : e ∈ (Program.ofTokens recovering (tokenize source).tokens).errors)
    (hfound : e.found = some t) :
    ∃ l ∈ Lexeme.scan Position.start source.toList, l.ReadsAs (.token t) ∧
      l.Marked source (e.diagnostic.render source) := by
  obtain ⟨ht, hline, hcolumn⟩ := Program.place_of_mem_errors_recover
    ((Program.errors_ofTokens_sublist recovering _).subset h) hfound
  obtain ⟨l, hl, hread⟩ := TokenStream.exists_lexeme_of_mem_tokens ht
  obtain ⟨hshape, hlexemeLine, hlexemeColumn⟩ := Lexeme.Placed.ReadsAs.of_token hread
  rw [TokenStream.ofString_eq] at hl
  have hsource : source.toList = [] ++ source.toList := rfl
  exact ⟨l, hl, hread, Lexeme.marked_of_mem_scan hsource hl hshape (hline.trans hlexemeLine)
    (hcolumn.trans hlexemeColumn)⟩

/-- From any byte on, every lexeme is where its position says and on the line that was kept, and
every token and diagnostic has the place of its lexeme. Diagnostics about characters are shown with
a caret under their lexeme, and syntax errors with a caret under the token they found. -/
theorem positions_exact_and_marked (source : String) (offset : Nat) (o : Options) :
    let s := TokenStream.startingAt source offset
    let ls := Lexeme.scan s.position s.rest
    let all := Lexeme.scan Position.start source.toList
    let errors := (Program.ofTokens o.recover (tokenize source).tokens).errors
    (∀ x ∈ (LineStart.ofText (cutAtByte offset source.toList).1).along ls,
      x.2.Exact source.toList x.1) ∧
    (∀ t ∈ s.tokens.1, ∃ l ∈ ls, l.ReadsAs (.token t) ∧
      IsPlace source.toList l.start.offset t.line t.column) ∧
    (∀ d ∈ s.tokens.2.diagnostics, ∃ l ∈ ls, l.ReadsAs (.problem d) ∧
      IsPlace source.toList l.start.offset d.line d.column ∧ l.Marked source (d.render source)) ∧
    (∀ d ∈ (compile source o).diagnostics, d.kind.isLexical = true →
      ∃ l ∈ all, l.ReadsAs (.problem d) ∧ l.Marked source (d.render source)) ∧
    ((compile source o).diagnostics.filter fun d => d.kind = .syntaxError) =
      errors.map SyntaxError.diagnostic ∧
    ∀ e ∈ errors, ∀ t, e.found = some t →
      ∃ l ∈ all, l.ReadsAs (.token t) ∧ l.Marked source (e.diagnostic.render source) := by
  intro s ls all errors
  have hstands : s.StandsIn source := TokenStream.standsIn_startingAt source offset
  refine ⟨?_, fun t ht => hstands.exists_lexeme_of_token ht,
    fun d hd => hstands.exists_lexeme_of_diagnostic rfl hd, fun d hd hlexical => ?_,
    filter_syntaxError_compile source o, fun e he t ht => SyntaxError.exists_marked he ht⟩
  · have hexact := Lexeme.exact_of_mem_along (cutAtByte offset source.toList).1 s.rest
    have hsplit : (cutAtByte offset source.toList).1 ++ s.rest = source.toList :=
      cutAtByte_append offset source.toList
    rwa [hsplit] at hexact
  · have hd : d ∈ (tokenize source).diagnostics := by
      rw [← filter_isLexical_compile source o]
      exact List.mem_filter.mpr ⟨hd, hlexical⟩
    have hwhole := TokenStream.standsIn_startingAt source 0
    obtain ⟨l, hl, hread, -, hmarked⟩ := hwhole.exists_lexeme_of_diagnostic rfl hd
    have hstart : TokenStream.startingAt source 0 = ⟨source.toList, Position.start, none, []⟩ :=
      TokenStream.ofString_eq source
    rw [hstart] at hl
    exact ⟨l, hl, hread, hmarked⟩

end AccessPolicy
