import AccessPolicy.Proofs.Source.Offset
import AccessPolicy.Proofs.Source.Readings
import AccessPolicy.Proofs.Text.Lines

/-!
# Texts behind others

What stands in front of a text moves it : its lines come after those in front, and its first line
goes on with the last of them (`Position.behind`). Nothing else changes. A lexeme is taken by what
comes at and after it, so the text is cut and read as if it stood alone, only at other places
(`TokenStream.tokens_behind`).

A stream that is opened at any byte has no token before it either, so it gives what the rest of the
text would give alone (`TokenStream.tokens_startingAt_eq_map_behind`).
-/

namespace AccessPolicy

open String (utf8Len)

/-! ## Moved places -/

/-- The column of something in a text, if `before` stood in front of the text. -/
def columnBehind (before : List Char) (line column : Nat) : Nat :=
  if line = 1 then column + (lastLine before).length else column

/-- The place, if `before` stood in front of the text. -/
def Position.behind (before : List Char) (p : Position) : Position :=
  ⟨p.offset + utf8Len before, p.line + before.count '\n', columnBehind before p.line p.column⟩

/-- The lexeme, if `before` stood in front of the text. -/
def Lexeme.Placed.behind (before : List Char) (l : Placed) : Placed :=
  { l with start := l.start.behind before }

/-- The token, if `before` stood in front of the text. -/
def Token.behind (before : List Char) (t : Token) : Token :=
  { t with
    line := t.line + before.count '\n'
    column := columnBehind before t.line t.column }

/-- The diagnostic, if `before` stood in front of the text. -/
def Diagnostic.behind (before : List Char) (d : Diagnostic) : Diagnostic :=
  { d with
    line := d.line + before.count '\n'
    column := columnBehind before d.line d.column }

/-- The reading, if `before` stood in front of the text. -/
def Lexeme.Reading.behind (before : List Char) : Reading → Reading
  | nothing => nothing
  | problem d => problem (d.behind before)
  | token t => token (t.behind before)

attribute [ext] Position

namespace Position

theorem behind_step (before : List Char) {p : Position} (hp : p.line ≠ 0) (c : Char) :
    (p.step c).behind before = (p.behind before).step c := by
  by_cases hc : c = '\n'
  · -- The line of `c` ends, so what follows is not on the first.
    have hline : p.line + 1 ≠ 1 := by omega
    simp only [step, if_pos hc, behind, columnBehind, if_neg hline]
    ext
    · exact Nat.add_right_comm ..
    · exact Nat.add_right_comm ..
    · rfl
  · simp only [step, if_neg hc, behind, columnBehind]
    ext
    · exact Nat.add_right_comm ..
    · rfl
    · dsimp only
      split
      · exact Nat.add_right_comm ..
      · rfl

theorem behind_start (before : List Char) : start.behind before = start.past before := by
  ext
  · exact (offset_past start before).symm
  · rw [line_start_past]
    rfl
  · rw [column_start_past]
    rfl

/-- The places of a text behind another are those of the whole text. -/
theorem behind_start_past (before cs : List Char) :
    (start.past cs).behind before = start.past (before ++ cs) := by
  induction cs using List.reverseRecOn with
  | nil => rw [past_nil, List.append_nil, behind_start]
  | append_singleton cs c ih =>
    have hline : (start.past cs).line ≠ 0 := by
      rw [line_start_past]
      omega
    rw [past_append, past_cons, past_nil, behind_step before hline, ih, ← List.append_assoc,
      past_append _ (before ++ cs), past_cons, past_nil]

end Position

/-! ## Cutting and reading -/

namespace Lexeme

theorem next?_behind (before ahead cs : List Char) :
    next? (Position.start.past (before ++ ahead)) cs =
      (next? (Position.start.past ahead) cs).map fun (l, rest) => (l.behind before, rest) := by
  unfold next?
  split
  · rfl
  · simp only [Option.map_some, Placed.behind]
    rw [← Position.past_append, ← Position.past_append, Position.behind_start_past,
      List.append_assoc]

/-- Behind others a text is cut into the same lexemes. -/
theorem scan_behind (before ahead cs : List Char) :
    scan (Position.start.past (before ++ ahead)) cs =
      (scan (Position.start.past ahead) cs).map (Placed.behind before) := by
  generalize hp : Position.start.past ahead = p
  fun_induction scan p cs generalizing ahead with
  | case1 p cs hnone =>
    have hnext := next?_behind before ahead cs
    rw [hp, hnone] at hnext
    exact scan_of_none hnext
  | case2 p cs l rest hsome ih =>
    have hnext := next?_behind before ahead cs
    rw [hp, hsome] at hnext
    obtain ⟨gap, -, -, -, -, hstart, -⟩ := exists_gap_of_next? hsome
    have hplace : l.start = Position.start.past (ahead ++ gap) := by
      rw [hstart, ← hp, Position.past_append]
    have hstop : Position.start.past (ahead ++ gap ++ l.lexeme.text) = l.stop := by
      rw [Position.past_append, ← hplace, Placed.stop]
    have hmoved : (l.behind before).stop =
        Position.start.past (before ++ (ahead ++ gap ++ l.lexeme.text)) := by
      rw [Placed.stop, Placed.behind, hplace, Position.behind_start_past, ← Position.past_append,
        List.append_assoc, List.append_assoc]
    rw [scan_of_some hnext, List.map_cons, hmoved, ih _ hstop]

/-- A lexeme behind others is read the same. -/
theorem read_behind (before : List Char) (lookback : Option Token.Kind) (l : Placed) :
    read lookback (l.behind before) = (read lookback l).behind before := by
  obtain ⟨⟨shape, text⟩, p⟩ := l
  have hmoved : Placed.behind before ⟨⟨shape, text⟩, p⟩ = ⟨⟨shape, text⟩, p.behind before⟩ := rfl
  rw [hmoved]
  cases shape with
  | digits =>
    by_cases hn : Nat.ofDigitChars 10 text 0 ≤ maxInt64
    · simp only [read, if_pos hn]
      rfl
    · simp only [read, if_neg hn]
      rfl
  | _ => rfl

theorem readAll_behind (before : List Char) (lookback : Option Token.Kind) (ls : List Placed) :
    readAll lookback (ls.map (Placed.behind before)) =
      (readAll lookback ls).map (Reading.behind before) := by
  induction ls generalizing lookback with
  | nil => rfl
  | cons l ls ih =>
    have hlookback : ((read lookback l).behind before).lookback lookback =
        (read lookback l).lookback lookback := by
      cases read lookback l <;> rfl
    rw [List.map_cons, readAll, read_behind, hlookback, ih, readAll, List.map_cons]

end Lexeme

namespace TokenStream

/-- Behind others a text gives the tokens and diagnostics that it gives alone, moved. -/
theorem tokens_behind (before cs : List Char) (lookback : Option Token.Kind)
    (ds : List Diagnostic) :
    let whole : TokenStream := ⟨cs, Position.start.past before, lookback, ds⟩
    let alone : TokenStream := ⟨cs, Position.start, lookback, []⟩
    whole.tokens.1 = alone.tokens.1.map (Token.behind before) ∧
      whole.tokens.2.diagnostics =
        ds ++ alone.tokens.2.diagnostics.map (Diagnostic.behind before) := by
  intro whole alone
  have hscan := Lexeme.scan_behind before [] cs
  rw [List.append_nil, Position.past_nil] at hscan
  have hreadings : whole.readings = alone.readings.map (Lexeme.Reading.behind before) := by
    rw [readings, readings, hscan, Lexeme.readAll_behind]
  obtain ⟨htokens, hdiagnostics⟩ := whole.tokens_eq_readings
  obtain ⟨htokens', hdiagnostics'⟩ := alone.tokens_eq_readings
  rw [htokens, hdiagnostics, htokens', hdiagnostics', hreadings, List.filterMap_map,
    List.filterMap_map, List.nil_append, List.map_filterMap, List.map_filterMap]
  refine ⟨?_, ?_⟩
  · exact congrArg (List.filterMap · _) (funext fun r => by cases r <;> rfl)
  · exact congrArg (ds ++ List.filterMap · _) (funext fun r => by cases r <;> rfl)

/-- A stream that is opened at an offset starts at the last boundary up to it. From there on it
gives what the rest of the text gives when it is read alone, moved behind the text before it. -/
theorem tokens_startingAt_eq_map_behind (source : String) (offset : Nat) :
    ∃ before after, source.toList = before ++ after ∧
      IsGreatest {b | IsBoundary source.toList b ∧ b ≤ offset} (utf8Len before) ∧
      (startingAt source offset).tokens.1 =
        (tokenize (String.ofList after)).tokens.map (Token.behind before) ∧
      (startingAt source offset).tokens.2.diagnostics =
        (tokenize (String.ofList after)).diagnostics.map (Diagnostic.behind before) := by
  have hgreatest := isGreatest_offset_startingAt source offset
  rw [offset_startingAt] at hgreatest
  refine ⟨_, _, (cutAtByte_append offset source.toList).symm, hgreatest, ?_⟩
  have hbehind := tokens_behind (cutAtByte offset source.toList).1
    (cutAtByte offset source.toList).2 none []
  rw [tokenize, ofString_eq, String.toList_ofList]
  exact hbehind

end TokenStream

end AccessPolicy
