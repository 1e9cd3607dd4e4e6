import AccessPolicy.Proofs.Source.Offset
import AccessPolicy.Proofs.Source.Patterns
import AccessPolicy.Proofs.Source.Readings

/-!
# Every character is accounted for

The lexemes of a text stand in it one after the other, each the longest there is at its place, and
what lies in no lexeme is blank (`Lexeme.Covers`). Every lexeme gives one thing : nothing if it is a
run of line feeds, a diagnostic if something is wrong with it (`Lexeme.fault?`), and a token
otherwise (`Lexeme.Placed.Gives`). So the tokens and the diagnostics of a text, taken together, are
one for each lexeme that is not a run of line feeds, and in the same order
(`TokenStream.covers_and_gives`).
-/

namespace AccessPolicy

open String (utf8Len)

namespace Lexeme

/-! ## Where lexemes stand -/

/-- The lexemes account for every character of a text from the byte `start` on. -/
structure Covers (cs : List Char) (start : Nat) (ls : List Placed) : Prop where
  /-- Each lexeme stands in the text at the place it names, and is the longest there. -/
  placed : ∀ l ∈ ls, start ≤ l.start.offset ∧ l.lexeme.text ≠ [] ∧
    ∃ before after, cs = before ++ (l.lexeme.text ++ after) ∧
      l.start = Position.start.past before ∧ l.lexeme.Longest after
  /-- Each lexeme ends before those after it start. -/
  ordered : ls.Pairwise fun l m => l.stop.offset ≤ m.start.offset
  /-- A character in no lexeme is blank. -/
  blank : ∀ before c after, cs = before ++ c :: after → start ≤ utf8Len before →
    (∀ l ∈ ls, ¬ (l.start.offset ≤ utf8Len before ∧ utf8Len before < l.stop.offset)) →
      isBlank c = true

theorem covers_nil {before cs : List Char} (h : ∀ c ∈ cs, isBlank c = true) :
    Covers (before ++ cs) (utf8Len before) [] where
  placed := by simp
  ordered := .nil
  blank := by
    intro ahead c after htext hstart _
    obtain ⟨gap, rfl, rfl⟩ := exists_append_of_utf8Len_le htext hstart
    exact h c (by simp)

/-- Before the lexemes that account for the rest of a text there may be one more, and blanks before
that. -/
theorem covers_cons {before gap rest : List Char} {l : Placed} {ls : List Placed}
    (hgap : ∀ b ∈ gap, isBlank b = true) (htext : l.lexeme.text ≠ [])
    (hlongest : l.lexeme.Longest rest) (hstart : l.start = Position.start.past (before ++ gap))
    (h : Covers (before ++ gap ++ l.lexeme.text ++ rest)
      (utf8Len (before ++ gap ++ l.lexeme.text)) ls) :
    Covers (before ++ gap ++ l.lexeme.text ++ rest) (utf8Len before) (l :: ls) := by
  have hstartOffset : l.start.offset = utf8Len (before ++ gap) := by
    rw [hstart, Position.offset_start_past]
  have hstopOffset : l.stop.offset = utf8Len (before ++ gap ++ l.lexeme.text) := by
    rw [Placed.stop, Position.offset_past, hstartOffset, ← String.utf8Len_append]
  have hgapLen := String.utf8Len_append before gap
  have htextLen := String.utf8Len_append (before ++ gap) l.lexeme.text
  have hhere : utf8Len before ≤ l.start.offset := by omega
  refine ⟨List.forall_mem_cons.mpr ⟨?_, fun m hm => ⟨?_, (h.placed m hm).2⟩⟩,
    List.pairwise_cons.mpr ⟨fun m hm => ?_, h.ordered⟩, ?_⟩
  · exact ⟨hhere, htext, before ++ gap, rest, by simp, hstart, hlongest⟩
  · have := (h.placed m hm).1
    omega
  · rw [hstopOffset]
    exact (h.placed m hm).1
  · intro ahead c after hsource hahead hout
    rw [List.forall_mem_cons] at hout
    by_cases hlater : utf8Len (before ++ gap ++ l.lexeme.text) ≤ utf8Len ahead
    · exact h.blank ahead c after hsource hlater hout.2
    · -- The character is not in the lexeme, so it comes in the gap before it.
      have hlt : utf8Len ahead < utf8Len (before ++ gap) := by omega
      simp only [List.append_assoc] at hsource
      obtain ⟨g, rfl, hrest⟩ := exists_append_of_utf8Len_le hsource hahead
      rw [String.utf8Len_append] at hlt
      obtain ⟨more, rfl, hmore⟩ := exists_append_of_utf8Len_le hrest.symm (by omega)
      cases more with
      | nil => simp at hlt
      | cons d more =>
        obtain ⟨rfl, -⟩ := List.cons.inj hmore
        exact hgap c (by simp)

theorem covers_scan (before cs : List Char) :
    Covers (before ++ cs) (utf8Len before) (scan (Position.start.past before) cs) := by
  generalize hp : Position.start.past before = p
  fun_induction scan p cs generalizing before with
  | case1 p cs hnone => exact covers_nil (forall_isBlank_of_next? hnone)
  | case2 p cs l rest hsome ih =>
    obtain ⟨gap, c, more, hgap, rfl, hstart, hmunch⟩ := exists_gap_of_next? hsome
    have hlongest := longest_munch c more
    obtain ⟨tail, htext⟩ := exists_text_munch c more
    rw [hmunch] at hlongest htext
    have hne : l.lexeme.text ≠ [] := fun h => List.cons_ne_nil c tail (htext.symm.trans h)
    have hplace : l.start = Position.start.past (before ++ gap) := by
      rw [hstart, ← hp, Position.past_append]
    have hstop : Position.start.past (before ++ gap ++ l.lexeme.text) = l.stop := by
      rw [Position.past_append, ← hplace, Placed.stop]
    have hrest := ih (before ++ gap ++ l.lexeme.text) hstop
    have := covers_cons hgap hne hlongest hplace hrest
    simpa using this

/-! ## What lexemes give -/

/-- What is wrong with a lexeme, if anything is. -/
def fault? : Lexeme → Option Diagnostic.Kind
  | ⟨.illegal, _⟩ => some .illegalCharacter
  | ⟨.unterminated, _⟩ => some .unterminatedString
  | ⟨.digits, ds⟩ => if Nat.ofDigitChars 10 ds 0 ≤ maxInt64 then none else some .invalidNumber
  | _ => none

/-- The one thing that a lexeme gives, at its own place. -/
def Placed.Gives (l : Placed) : Reading → Prop
  | .nothing => l.lexeme.shape = .newlines
  | .problem d =>
    l.lexeme.fault? = some d.kind ∧ d.line = l.start.line ∧ d.column = l.start.column
  | .token t =>
    l.lexeme.shape ≠ .newlines ∧ l.lexeme.fault? = none ∧ t.line = l.start.line ∧
      t.column = l.start.column

theorem gives_read (lookback : Option Token.Kind) (l : Placed) : l.Gives (read lookback l) := by
  obtain ⟨⟨shape, text⟩, p⟩ := l
  cases shape with
  | newlines => rfl
  | digits =>
    by_cases hn : Nat.ofDigitChars 10 text 0 ≤ maxInt64
    · simp [read, hn, Placed.Gives, fault?]
    · simp [read, hn, Placed.Gives, fault?]
  | unterminated | illegal => exact ⟨rfl, rfl, rfl⟩
  | word | quoted | symbol s => exact ⟨nofun, rfl, rfl, rfl⟩

theorem forall₂_gives_readAll (lookback : Option Token.Kind) (ls : List Placed) :
    List.Forall₂ Placed.Gives ls (readAll lookback ls) := by
  induction ls generalizing lookback with
  | nil => exact .nil
  | cons l ls ih => exact .cons (gives_read lookback l) (ih _)

end Lexeme

/-- A stream starts at the last boundary up to the offset it is opened at. From there on, its
lexemes account for every character, and its tokens and diagnostics are what they give in order,
each one thing. -/
theorem TokenStream.covers_and_gives (source : String) (offset : Nat) :
    let s := startingAt source offset
    let ls := Lexeme.scan s.position s.rest
    IsGreatest {b | IsBoundary source.toList b ∧ b ≤ offset} s.offset ∧
      Lexeme.Covers source.toList s.offset ls ∧
        ∃ rs, List.Forall₂ Lexeme.Placed.Gives ls rs ∧
          s.tokens.1 = rs.filterMap Lexeme.Reading.token? ∧
            s.tokens.2.diagnostics = rs.filterMap Lexeme.Reading.problem? := by
  intro s ls
  refine ⟨isGreatest_offset_startingAt source offset, ?_, s.readings,
    Lexeme.forall₂_gives_readAll s.lookback ls, s.tokens_eq_readings⟩
  obtain ⟨before, hsource, hposition⟩ := standsIn_startingAt source offset
  have hcovers := Lexeme.covers_scan before s.rest
  rw [← hsource, ← hposition, ← Position.offset_start_past, ← hposition] at hcovers
  exact hcovers

end AccessPolicy
