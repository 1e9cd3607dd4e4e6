import AccessPolicy.Proofs.Grammar.Parse
import AccessPolicy.Proofs.Source.Readings
import Mathlib.Data.List.Forall2

/-!
# Wildcards and product signs

A `*` is read by the kind of the token before it alone, and never wrongly : if some way to read
the `*` of a text gives tokens that derive a program, it is the way of `tokenize`
(`Program.eq_tokens_of_derives`).

Both sides follow the same rule. `StarsFit star ts star'` says that every `*` among `ts` is of the
kind that the token before it asks for. The tokens of any text fit, whatever it says, and so do
those of any derivation : in the grammar a wildcard follows a colon and a product sign follows
an operand, and no operand ends with a colon or an opening brace.
-/

namespace AccessPolicy

/-- Each `*` among the tokens is of the kind that the token before it asks for, if one right at
the start were of the kind `star` and one right after the end of the kind `star'`. -/
inductive StarsFit : Token.Kind → List Token → Token.Kind → Prop
  | nil {star : Token.Kind} : StarsFit star [] star
  | cons {star star' : Token.Kind} {t : Token} {ts : List Token} (ht : t.IsStar → t.kind = star)
    (hts : StarsFit (Lexeme.starKind (some t.kind)) ts star') : StarsFit star (t :: ts) star'

namespace StarsFit

variable {star star' star'' : Token.Kind}

theorem append {ts us : List Token} (h : StarsFit star ts star') (hus : StarsFit star' us star'') :
    StarsFit star (ts ++ us) star'' := by
  induction h with
  | nil => exact hus
  | cons ht _ ih => exact .cons ht (ih hus)

end StarsFit

/-! ## Texts -/

theorem Lexeme.exists_starsFit_readAll (lookback : Option Token.Kind) (ls : List Placed) :
    ∃ star, StarsFit (starKind lookback) ((readAll lookback ls).filterMap Reading.token?) star := by
  induction ls generalizing lookback with
  | nil => exact ⟨_, .nil⟩
  | cons l ls ih =>
    rw [readAll]
    cases hr : read lookback l with
    | nothing => exact ih lookback
    | problem d => exact ih lookback
    | token t =>
      obtain ⟨star, hrest⟩ := ih (some t.kind)
      refine ⟨star, .cons (fun ht => ?_) hrest⟩
      by_cases hl : l.lexeme.shape = .symbol .star
      · rw [read_star hl] at hr
        obtain rfl := Reading.token.inj hr
        rfl
      · exact absurd ht (not_isStar_of_read hl hr)

theorem exists_starsFit_tokenize (source : String) :
    ∃ star, StarsFit .times (tokenize source).tokens star := by
  obtain ⟨htokens, -⟩ := (TokenStream.ofString source).tokens_eq_readings
  have hs : (TokenStream.ofString source).lookback = none :=
    congrArg TokenStream.lookback (TokenStream.ofString_eq source)
  obtain ⟨star, h⟩ := Lexeme.exists_starsFit_readAll (TokenStream.ofString source).lookback
    (Lexeme.scan _ (TokenStream.ofString source).rest)
  refine ⟨star, ?_⟩
  rw [← TokenStream.readings, ← htokens, hs] at h
  exact h

/-! ## Derivations -/

/-- The leaf is no `*`, and right after it one is of the kind `star`. -/
def Leaf.Asks (l : Leaf) (star : Token.Kind) : Prop :=
  ∀ k ∈ l.expectation.kinds, ¬ (k = .wildcard ∨ k = .times) ∧ Lexeme.starKind (some k) = star

instance (l : Leaf) (star : Token.Kind) : Decidable (l.Asks star) :=
  inferInstanceAs (Decidable (∀ k ∈ l.expectation.kinds, _))

namespace Grammar

/-- The tokens of the items fit. -/
abbrev Fits (star : Token.Kind) (s : List Item) (star' : Token.Kind) : Prop :=
  StarsFit star (Item.tokens s) star'

variable {star star' star'' : Token.Kind} {s u : List Item}

namespace Fits

theorem append (hs : Fits star s star') (hu : Fits star' u star'') : Fits star (s ++ u) star'' := by
  rw [Fits, Item.tokens, List.map_append]
  exact StarsFit.append hs hu

theorem leaf {l : Leaf} (star' : Token.Kind) (m : l.Match) (hl : l.Asks star')
    (hs : Fits star' s star'') : Fits star (↑m :: s) star'' := by
  obtain ⟨hplain, hafter⟩ := hl m.token.kind (Leaf.mem_kinds_of_accepts m.fits)
  exact .cons (fun hstar => absurd hstar hplain) (hafter ▸ hs)

theorem one {l : Leaf} (m : l.Match) (hl : l.Asks star') : Fits star [↑m] star' :=
  leaf star' m hl .nil

/-- A `*` fits where one of its kind is asked for. -/
theorem self (m : (Leaf.kind star).Match) (hs : Fits (Lexeme.starKind (some star)) s star') :
    Fits star (↑m :: s) star' := by
  have hm : m.token.kind = star := m.fits
  exact .cons (fun _ => hm) (hm.symm ▸ hs)

/-- An operator fits after its left operand. -/
theorem operator (op : BinaryOp) (m : (Leaf.kind op.kind).Match) (hs : Fits .times s star') :
    Fits .times (↑m :: s) star' := by
  cases op with
  | mul => exact .self m hs
  | add | sub | div => exact .leaf .times m (by decide) hs

end Fits

/-- In an operand a `*` comes after an operand, whatever came before. -/
theorem fits_of_operand : ∀ {l : Level} {s : List Item} {e : Expr} {star : Token.Kind},
    Operand l s e → Fits star s .times
  | _, _, _, _, .number m _ => .one m (by decide)
  | _, _, _, _, .string m => .one m (by decide)
  | _, _, _, _, .name m => .one m (by decide)
  | _, _, _, _, .access object dot name =>
    .leaf .times object (by decide) (.leaf .times dot (by decide) (.one name (by decide)))
  | _, _, _, _, .group left h right =>
    .leaf .times left (by decide) ((fits_of_operand h).append (.one right (by decide)))
  | _, _, _, _, .unsigned h => fits_of_operand h
  | _, _, _, _, .signed sign m h =>
    .leaf .times m (by cases sign <;> decide) (fits_of_operand h)
  | _, _, _, _, .factor h => fits_of_operand h
  | _, _, _, _, .product he _ m hf =>
    (fits_of_operand he).append (.operator _ m (fits_of_operand hf))
  | _, _, _, _, .term h => fits_of_operand h
  | _, _, _, _, .sum he _ m hf => (fits_of_operand he).append (.operator _ m (fits_of_operand hf))

theorem fits_of_compared {c : Comparison} (h : Compared s c) : Fits star s .times := by
  obtain ⟨he, r, m, hf⟩ := h
  exact (fits_of_operand he).append (.leaf .times m (by cases r <;> decide) (fits_of_operand hf))

theorem fits_of_conjunction {c : Condition} (h : Conjunction s c) : Fits star s .times := by
  induction h with
  | one h => exact fits_of_compared h
  | more _ m hc ih => exact ih.append (.leaf .times m (by decide) (fits_of_compared hc))

theorem fits_of_disjunction {c : Condition} (h : Disjunction s c) : Fits star s .times := by
  induction h with
  | one h => exact fits_of_conjunction h
  | more _ m hc ih => exact ih.append (.leaf .times m (by decide) (fits_of_conjunction hc))

theorem fits_of_named {a : ActionName} (h : Named s a) : Fits star s .times := by
  rcases h with m | m
  · exact .one m (by decide)
  · exact .one m (by decide)

theorem fits_of_names {as : List ActionName} (h : Names s as) : Fits star s .times := by
  induction h generalizing star with
  | one h => exact fits_of_named h
  | more h comma _ ih => exact (fits_of_named h).append (.leaf .times comma (by decide) ih)

/-- Actions fit where a wildcard is asked for. -/
theorem fits_of_actions {a : ActionSet} (h : Actions s a) : Fits .wildcard s .times := by
  cases h with
  | wildcard m => exact .self m .nil
  | named h => exact fits_of_names h

theorem fits_of_guard {c : Option Condition} (h : Guard s c) : Fits .times s .times := by
  cases h with
  | none => exact .nil
  | some opening left h right =>
    exact .leaf .times opening (by decide) (.leaf .times left (by decide)
      ((fits_of_disjunction h).append (.one right (by decide))))

/-- After the first field of a block a wildcard is asked for. -/
theorem Fits.block {k l : Leaf} (keyword : k.Match) (hk : k.Asks .times)
    (name : (Leaf.kind .identifier).Match) (left : (Leaf.kind .lbrace).Match) (field : l.Match)
    (hl : l.Asks .times) (colon : (Leaf.kind .colon).Match) (hs : Fits .wildcard s star') :
    Fits star (↑keyword :: ↑name :: ↑left :: ↑field :: ↑colon :: s) star' := by
  have hfield : Fits .wildcard (↑field :: ↑colon :: s) star' :=
    .leaf .times field hl (.leaf .wildcard colon (by decide) hs)
  exact .leaf .times keyword hk (.leaf .times name (by decide)
    (.leaf .wildcard left (by decide) hfield))

theorem fits_of_declared {d : Declaration} (h : Declared s d) : Fits star s .times := by
  rcases h with ⟨keyword, name, left, can, colon, ha, right⟩ |
    ⟨keyword, name, left, field, colon, role, right⟩ |
    ⟨keyword, name, left, field, colon, path, right⟩ |
    ⟨effect, keyword, action, colon, ha, on, field, colon', resource, hc⟩
  -- Opening braces and colons ask for a wildcard, but only the actions have a `*` to give.
  · have hright : Fits .times [↑right] .times := .one right (by decide)
    exact .block keyword (by decide) name left can (by decide) colon
      ((fits_of_actions ha).append hright)
  · exact .block keyword (by decide) name left field (by decide) colon
      (.leaf .times role (by decide) (.one right (by decide)))
  · exact .block keyword (by decide) name left field (by decide) colon
      (.leaf .times path (by decide) (.one right (by decide)))
  · have htarget : Fits .times (↑on :: ↑field :: ↑colon' :: ↑resource :: _) .times :=
      .leaf .times on (by decide) (.leaf .times field (by decide)
        (.leaf .wildcard colon' (by decide) (.leaf .times resource (by decide)
        (fits_of_guard hc))))
    exact .leaf .times keyword (by cases effect <;> decide) (.leaf .times action (by decide)
      (.leaf .wildcard colon (by decide) ((fits_of_actions ha).append htarget)))

theorem fits_of_declarations {ds : List Declaration} (h : Declarations s ds) :
    Fits .times s .times := by
  induction h with
  | nil => exact .nil
  | cons h _ ih => exact (fits_of_declared h).append ih

end Grammar

/-! ## The only way -/

/-- The tokens differ in nothing but how a `*` is read. -/
def Token.SameUpToStar (t u : Token) : Prop :=
  t = u ∨ t.IsStar ∧ u.IsStar ∧ u = { t with kind := u.kind }

/-- Where all `*` fit, the kinds before them leave no choice. -/
theorem StarsFit.eq_of_sameUpToStar {star star' star'' : Token.Kind} {ts us : List Token}
    (hts : StarsFit star ts star') (hus : StarsFit star us star'')
    (h : List.Forall₂ Token.SameUpToStar ts us) : ts = us := by
  induction h generalizing star with
  | nil => rfl
  | @cons t u ts us htu _ ih =>
    cases hts with
    | cons ht hts =>
      cases hus with
      | cons hu hus =>
        have heq : t = u := by
          rcases htu with rfl | ⟨htstar, hustar, hu'⟩
          · rfl
          · rw [hu', hu hustar, ← ht htstar]
        subst heq
        rw [ih hts hus]

namespace Program

/-- If the tokens of a text derive a program once each `*` among them is read in some way, it is
the way in which they were read, and the text is parsed as that program. -/
theorem eq_tokens_of_derives {source : String} {us : List Token} {p : Program}
    (hus : List.Forall₂ Token.SameUpToStar (tokenize source).tokens us) (h : Derives us p) :
    us = (tokenize source).tokens ∧ ofSource source = .ok p := by
  have heq : (tokenize source).tokens = us := by
    obtain ⟨star, htokens⟩ := exists_starsFit_tokenize source
    obtain ⟨ds, ⟨s, rfl, hs⟩, -⟩ := h
    exact htokens.eq_of_sameUpToStar (Grammar.fits_of_declarations hs) hus
  subst heq
  exact ⟨rfl, parse_eq_ok_iff.mpr h⟩

/-- A role and a policy with a `*` wherever one can stand. -/
def starry : String :=
  "ROLE Root \x7bCAN: *\x7d\nALLOW ACTION:* ON resource: Db IF (a.size * 2 > -(b) * 3)"

/-- Its program. -/
def starryProgram : Program :=
  ofDeclarations [
    .role { name := "Root", actions := .wildcard 1, line := 1 },
    .policy {
      effect := .allow
      actions := .wildcard 2
      resource := "Db"
      condition := some (.comparison ⟨.gt,
        .binary .mul (.access ⟨"a", "size", 2⟩) (.literal (.number 2 2)) 2,
        .binary .mul (.unary .minus (.literal (.identifier "b" 2)) 2) (.literal (.number 3 2)) 2,
        2⟩)
      line := 2 }]

theorem eq_tokens_of_derives_starry :
    List.Forall₂ Token.SameUpToStar (tokenize starry).tokens (tokenize starry).tokens ∧
      Derives (tokenize starry).tokens starryProgram ∧ ofSource starry = .ok starryProgram := by
  have hsame : List.Forall₂ Token.SameUpToStar (tokenize starry).tokens (tokenize starry).tokens :=
    List.forall₂_same.mpr fun t _ => Or.inl rfl
  have hparse : parse (tokenize starry).tokens = .ok starryProgram := by decide +kernel
  have hderives : Derives (tokenize starry).tokens starryProgram := parse_eq_ok_iff.mp hparse
  exact ⟨hsame, hderives, (eq_tokens_of_derives hsame hderives).2⟩

end Program

end AccessPolicy
