import AccessPolicy.Proofs.Source.Coverage
import AccessPolicy.Proofs.Source.Places
import Mathlib.Data.List.Forall2

/-!
# The token before a `*`

A stream keeps the kind of the last token it gave. Lexemes that give no token leave it alone, so
what is kept when a `*` comes is the kind of the token just before it in the sequence of tokens,
however far back that is in the text (`Lexeme.forall₂_withPrevious`). This kind alone decides what
the `*` is, and nothing else is ever read as a wildcard or a product sign
(`TokenStream.decides_withPrevious`).
-/

namespace AccessPolicy

/-- Each token with the one just before it, if the first came after `before`. -/
def Token.withPrevious (before : Option Token) : List Token → List (Option Token × Token)
  | [] => []
  | t :: ts => (before, t) :: withPrevious (some t) ts

namespace Lexeme

/-- Whether a lexeme gives a token : it is no run of line feeds, and nothing is wrong with it. -/
def givesToken (l : Lexeme) : Bool :=
  l.shape ≠ .newlines && l.fault?.isNone

/-- The lexeme stands in the text and gives the token `t` after the token `before`, where being a
`*` and the token before say all there is about being a wildcard or a product sign. -/
structure Placed.Decides (source : String) (l : Placed) (before : Option Token) (t : Token) :
    Prop where
  /-- The text has the lexeme at its place. -/
  stands : ∃ ahead after, source.toList = ahead ++ (l.lexeme.text ++ after) ∧
    l.start = Position.start.past ahead
  /-- The token is the one that the lexeme gives. -/
  gives : l.Gives (.token t)
  /-- A `*` is a wildcard after a colon or an opening brace, and a product sign otherwise. -/
  star : l.lexeme.text = ['*'] →
    t.kind = if before.any Token.asksForWildcard then .wildcard else .times
  /-- Anything else is neither. -/
  other : l.lexeme.text ≠ ['*'] → t.kind ≠ .wildcard ∧ t.kind ≠ .times

/-! ## One lexeme -/

theorem Placed.Gives.isSome_token? {l : Placed} {r : Reading} (h : l.Gives r) :
    r.token?.isSome = l.lexeme.givesToken := by
  cases r with
  | nothing => simp [givesToken, show l.lexeme.shape = .newlines from h, Reading.token?]
  | problem d => simp [givesToken, h.1, Reading.token?]
  | token t => simp [givesToken, h.1, h.2.1, Reading.token?]

theorem munch_star (cs : List Char) : munch '*' cs = (⟨.symbol .star, ['*']⟩, cs) := by
  cases cs <;> rfl

theorem text_eq_star_iff {c : Char} {cs : List Char} :
    (munch c cs).1.text = ['*'] ↔ (munch c cs).1.shape = .symbol .star := by
  refine ⟨fun h => ?_, fun h => ?_⟩
  · obtain ⟨more, htext⟩ := exists_text_munch c cs
    obtain ⟨rfl, -⟩ := List.cons.inj (htext.symm.trans h)
    rw [munch_star]
  · have hproper := proper_munch c cs
    rwa [Proper, h] at hproper

/-! ## All lexemes -/

/-- Every token is read with the kind of the one just before it in mind. -/
theorem forall₂_withPrevious (before : Option Token) (ls : List Placed) :
    List.Forall₂ (fun l x => read (x.1.map Token.kind) l = .token x.2)
      (ls.filter (·.lexeme.givesToken))
      (Token.withPrevious before
        ((readAll (before.map Token.kind) ls).filterMap Reading.token?)) := by
  induction ls generalizing before with
  | nil => exact .nil
  | cons l ls ih =>
    have hgives := (gives_read (before.map Token.kind) l).isSome_token?
    rw [readAll]
    cases hr : read (before.map Token.kind) l with
    | nothing =>
      rw [hr] at hgives
      rw [List.filter_cons_of_neg (by simp [← hgives, Reading.token?])]
      exact ih before
    | problem d =>
      rw [hr] at hgives
      rw [List.filter_cons_of_neg (by simp [← hgives, Reading.token?])]
      exact ih before
    | token t =>
      rw [hr] at hgives
      rw [List.filter_cons_of_pos (by simp [← hgives, Reading.token?])]
      exact .cons hr (ih (some t))

/-- The token before decides what a `*` is, and nothing else can be one. -/
theorem decides_of_read {source : String} {l : Placed} {before : Option Token} {t : Token}
    (hstands : ∃ ahead after, source.toList = ahead ++ (l.lexeme.text ++ after) ∧
      l.start = Position.start.past ahead)
    (hmunch : ∃ c cs, (munch c cs).1 = l.lexeme)
    (hread : read (before.map Token.kind) l = .token t) : l.Decides source before t := by
  obtain ⟨c, cs, hl⟩ := hmunch
  have hstar : l.lexeme.text = ['*'] ↔ l.lexeme.shape = .symbol .star := hl ▸ text_eq_star_iff
  have hgives := gives_read (before.map Token.kind) l
  rw [hread] at hgives
  refine ⟨hstands, hgives, fun htext => ?_, fun htext => ?_⟩
  · rw [read_star (hstar.mp htext)] at hread
    obtain rfl := Reading.token.inj hread
    exact starKind_map_kind before
  · exact not_or.mp (not_isStar_of_read (mt hstar.mpr htext) hread)

end Lexeme

/-- From any byte on, the lexemes that give a token and the tokens they give correspond to each
other in order. A token from a `*` is a wildcard if the token just before it is a colon or an
opening brace, and otherwise, and if there is none, a product sign. No other token is either. -/
theorem TokenStream.decides_withPrevious (source : String) (offset : Nat) :
    let s := startingAt source offset
    List.Forall₂ (fun l x => l.Decides source x.1 x.2)
      ((Lexeme.scan s.position s.rest).filter (·.lexeme.givesToken))
      (Token.withPrevious none s.tokens.1) := by
  intro s
  obtain ⟨before, hsource, hposition⟩ := standsIn_startingAt source offset
  have hread := Lexeme.forall₂_withPrevious none (Lexeme.scan s.position s.rest)
  have htokens : s.tokens.1 =
      (Lexeme.readAll none (Lexeme.scan s.position s.rest)).filterMap Lexeme.Reading.token? :=
    s.tokens_eq_readings.1
  have hplaced : ∀ l ∈ (Lexeme.scan s.position s.rest).filter (·.lexeme.givesToken),
      (∃ ahead after, source.toList = ahead ++ (l.lexeme.text ++ after) ∧
        l.start = Position.start.past ahead) ∧ ∃ c cs, (Lexeme.munch c cs).1 = l.lexeme := by
    intro l hl
    have hmem : l ∈ Lexeme.scan (Position.start.past before) s.rest :=
      hposition ▸ List.mem_of_mem_filter hl
    obtain ⟨-, -, ahead, after, htext, hstart, -⟩ :=
      (Lexeme.covers_scan before s.rest).placed l hmem
    obtain ⟨c, cs, -, hmunch⟩ := Lexeme.exists_munch_of_mem_scan hmem
    exact ⟨⟨ahead, after, hsource.trans htext, hstart⟩, c, cs, hmunch⟩
  rw [htokens]
  exact ((List.forall₂_and_left _ _).mpr ⟨hplaced, hread⟩).imp fun l x hlx =>
    Lexeme.decides_of_read hlx.1.1 hlx.1.2 hlx.2

-- What gives no token does not come between a `*` and the token before it.
example : (tokenize "\x7b @\n99999999999999999999 \"x\n* *").tokens.map Token.kind =
    [.lbrace, .wildcard, .times] := by decide +kernel

end AccessPolicy
