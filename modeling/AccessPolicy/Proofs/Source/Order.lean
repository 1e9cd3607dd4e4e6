import AccessPolicy.Proofs.Grammar.Spans
import AccessPolicy.Proofs.Source.Coverage
import Mathlib.Data.Prod.Lex

/-!
# Tokens and nodes in order

The lexemes of a text stand one behind the other, so its tokens come in the order of their places,
and so do its diagnostics (`TokenStream.pairwise_place`). A parser passes the lines of tokens up,
from the leaves of a program through folds from the left and from the right to the root.
`Program.line_exact` says what comes out : every node is on the line of the leftmost token it was
read from, and the lines never decrease along the walk over the program of a text.
-/

namespace AccessPolicy

/-! ## Places in order -/

/-- The line and the column of a position, which are compared in this order. -/
def Position.place (p : Position) : ℕ ×ₗ ℕ :=
  toLex (p.line, p.column)

/-- The place of a token. -/
def Token.place (t : Token) : ℕ ×ₗ ℕ :=
  toLex (t.line, t.column)

/-- The place of a diagnostic. -/
def Diagnostic.place (d : Diagnostic) : ℕ ×ₗ ℕ :=
  toLex (d.line, d.column)

namespace Position

theorem place_lt_step (p : Position) (c : Char) : p.place < (p.step c).place := by
  rw [place, place, Prod.Lex.toLex_lt_toLex]
  unfold step
  split
  · exact Or.inl (Nat.lt_succ_self _)
  · exact Or.inr ⟨rfl, Nat.lt_succ_self _⟩

theorem place_le_past (p : Position) (cs : List Char) : p.place ≤ (p.past cs).place := by
  induction cs generalizing p with
  | nil => exact le_refl _
  | cons c cs ih => exact (p.place_lt_step c).le.trans (ih (p.step c))

theorem place_lt_past (p : Position) {cs : List Char} (h : cs ≠ []) :
    p.place < (p.past cs).place := by
  obtain ⟨c, cs, rfl⟩ := List.exists_cons_of_ne_nil h
  exact (p.place_lt_step c).trans_le ((p.step c).place_le_past cs)

end Position

namespace Lexeme

/-- A lexeme starts behind the start of each before it. -/
theorem Covers.pairwise_place {cs : List Char} {start : Nat} {ls : List Placed}
    (h : Covers cs start ls) : ls.Pairwise fun l m => l.start.place < m.start.place := by
  refine h.ordered.imp_of_mem fun {l m} hl hm hlm => ?_
  obtain ⟨-, hne, before, after, hcs, hstart, -⟩ := h.placed l hl
  obtain ⟨-, -, before', after', hcs', hstart', -⟩ := h.placed m hm
  rw [Placed.stop, Position.offset_past, hstart, hstart', Position.offset_start_past,
    Position.offset_start_past] at hlm
  obtain ⟨ds, rfl, -⟩ := exists_append_of_utf8Len_le (hcs.symm.trans hcs') (by omega)
  have hds : ds ≠ [] := by
    rintro rfl
    rw [List.append_nil] at hlm
    exact hne (String.utf8Len_eq_zero.mp (by omega))
  rw [hstart, hstart', Position.past_append]
  exact Position.place_lt_past _ hds

section Gives

/-! What a selection `f` of the readings finds has the places of their lexemes. -/

variable {α : Type} {f : Reading → Option α} {place : α → ℕ ×ₗ ℕ}
  (hf : ∀ l r a, Placed.Gives l r → f r = some a → place a = l.start.place)
  {ls : List Placed} {rs : List Reading}

include hf

theorem exists_place_of_gives (h : List.Forall₂ Placed.Gives ls rs) :
    ∀ a ∈ rs.filterMap f, ∃ l ∈ ls, place a = l.start.place := by
  induction h with
  | nil => simp
  | @cons l r ls rs hr _ ih =>
    have hmore : ∀ a ∈ rs.filterMap f, ∃ m ∈ l :: ls, place a = m.start.place :=
      fun a ha => (ih a ha).imp fun m hm => ⟨List.mem_cons_of_mem l hm.1, hm.2⟩
    cases hfr : f r with
    | none => rwa [List.filterMap_cons_none hfr]
    | some a =>
      rw [List.filterMap_cons_some hfr]
      exact List.forall_mem_cons.mpr ⟨⟨l, List.mem_cons_self, hf l r a hr hfr⟩, hmore⟩

theorem pairwise_place_of_gives (h : List.Forall₂ Placed.Gives ls rs)
    (hls : ls.Pairwise fun l m => l.start.place < m.start.place) :
    (rs.filterMap f).Pairwise fun a b => place a < place b := by
  induction h with
  | nil => exact .nil
  | @cons l r ls rs hr hrs ih =>
    obtain ⟨hl, hls⟩ := List.pairwise_cons.mp hls
    cases hfr : f r with
    | none =>
      rw [List.filterMap_cons_none hfr]
      exact ih hls
    | some a =>
      rw [List.filterMap_cons_some hfr]
      refine List.pairwise_cons.mpr ⟨fun b hb => ?_, ih hls⟩
      obtain ⟨m, hm, hplace⟩ := exists_place_of_gives hf hrs b hb
      rw [hf l r a hr hfr, hplace]
      exact hl m hm

end Gives

end Lexeme

/-- From any byte on, tokens come in the order of their places, and so do diagnostics. -/
theorem TokenStream.pairwise_place (source : String) (offset : Nat) :
    let s := startingAt source offset
    s.tokens.1.Pairwise (fun t u => t.place < u.place) ∧
      s.tokens.2.diagnostics.Pairwise fun d e => d.place < e.place := by
  intro s
  have hls : (Lexeme.scan s.position s.rest).Pairwise fun l m => l.start.place < m.start.place :=
    (Lexeme.covers_scan (cutAtByte offset source.toList).1 s.rest).pairwise_place
  have hgives := Lexeme.forall₂_gives_readAll s.lookback (Lexeme.scan s.position s.rest)
  obtain ⟨htokens, hdiagnostics⟩ := s.tokens_eq_readings
  have hnone : s.diagnostics = [] := rfl
  rw [htokens, hdiagnostics, hnone, List.nil_append]
  refine ⟨Lexeme.pairwise_place_of_gives (fun l r t hr ht => ?_) hgives hls,
    Lexeme.pairwise_place_of_gives (fun l r d hr hd => ?_) hgives hls⟩
  · cases r with
    | token u =>
      obtain rfl := Option.some.inj ht
      exact congrArg toLex (Prod.ext hr.2.2.1 hr.2.2.2)
    | nothing | problem => simp [Lexeme.Reading.token?] at ht
  · cases r with
    | problem e =>
      obtain rfl := Option.some.inj hd
      exact congrArg toLex (Prod.ext hr.2.1 hr.2.2)
    | nothing | token => simp [Lexeme.Reading.problem?] at hd

theorem linesOrdered_tokenize (source : String) : Token.LinesOrdered (tokenize source).tokens := by
  obtain ⟨htokens, -⟩ := TokenStream.pairwise_place source 0
  refine htokens.imp fun {t u} htu => ?_
  rcases Prod.Lex.toLex_lt_toLex.mp htu with hlt | ⟨heq, -⟩
  · exact Nat.le_of_lt hlt
  · exact Nat.le_of_eq heq

/-! ## Nodes -/

namespace Program

open Grammar

/-- A program is on the line of its first token, which opens a declaration. -/
theorem Derives.exists_leading {ts : List Token} {p : Program} (h : Derives ts p) :
    ts = [] ∨ ∃ t, Token.leading? ts = some t ∧ p.line = t.line ∧
      (Node.program p).OpensWith t := by
  obtain ⟨ds, ⟨s, rfl, hs⟩, rfl⟩ := h
  cases hs with
  | nil => exact Or.inl rfl
  | @cons s u d ds hd _ =>
    obtain ⟨t, ht, hline, -⟩ := (leads_declared hd).append u
    refine Or.inr ⟨t, ht, hline, ?_⟩
    obtain ⟨i, v, rfl, hi, -⟩ := exists_opening_of_declared hd
    have hparen : i.token.isParen = false := by
      cases hk : i.token.kind <;> simp_all [Token.isParen, Token.Kind.startsDeclaration]
    have hfirst : Token.leading? (Item.tokens (i :: v ++ u)) = some i.token :=
      List.find?_cons_of_pos (by simp [hparen])
    obtain rfl := Option.some.inj (hfirst.symm.trans ht)
    exact hi

theorem line_of_nil {p : Program} (h : Derives [] p) : p.line = 0 := by
  obtain ⟨ds, ⟨s, hs, h⟩, rfl⟩ := h
  cases h with
  | nil => rfl
  | cons hd _ =>
    obtain ⟨i, v, rfl, -⟩ := exists_opening_of_declared hd
    cases hs

/-- Every node of a program was read from tokens of its own : those of its children stand in them,
one child after the other, and their leftmost, parentheses aside, opens the node and has its line.
The lines of the nodes never decrease along the walk if those of the tokens do not, as in any
text. -/
theorem line_exact {ts : List Token} {p : Program} (h : parse ts = .ok p) :
    (∃ below, Node.Spans ts (Node.program p).children below) ∧
    (∀ below, Node.Spans ts (Node.program p).children below →
      (Node.program p).walk = Node.program p :: below.map Prod.fst ∧
      ∀ x ∈ below, x.2 <:+: ts ∧
        ∃ t, Token.leading? x.2 = some t ∧ x.1.line = t.line ∧ x.1.OpensWith t) ∧
    p.line = (p.declarations.head?.map Declaration.line).getD 0 ∧
    (ts = [] ∧ p.line = 0 ∨ ∃ t, Token.leading? ts = some t ∧ p.line = t.line ∧
      (Node.program p).OpensWith t) ∧
    ∀ source, (tokenize source).tokens = ts →
      ((Node.program p).walk.map Node.line).Pairwise (· ≤ ·) := by
  have hderives : Derives ts p := parse_eq_ok_iff.mp h
  have hparts : ∀ c ∈ (Node.program p).children, c.IsPart :=
    fun c hc => Node.isPart_of_mem_children hc
  have hspans : ∃ below, Node.Spans ts (Node.program p).children below := by
    obtain ⟨ds, ⟨s, rfl, hs⟩, rfl⟩ := hderives
    exact spanned_declarations hs
  have hwalk : ∀ below, Node.Spans ts (Node.program p).children below →
      (Node.program p).walk = Node.program p :: below.map Prod.fst := by
    intro below hbelow
    rw [Node.walk_eq, hbelow.map_fst]
  have hline : p.line = (p.declarations.head?.map Declaration.line).getD 0 := by
    obtain ⟨ds, -, rfl⟩ := hderives
    rfl
  have hroot : ts = [] ∧ p.line = 0 ∨ ∃ t, Token.leading? ts = some t ∧ p.line = t.line ∧
      (Node.program p).OpensWith t :=
    hderives.exists_leading.imp_left fun hnil => ⟨hnil, line_of_nil (hnil ▸ hderives)⟩
  refine ⟨hspans, fun below hbelow => ⟨hwalk below hbelow, fun x hx =>
    ⟨hbelow.isInfix_of_mem x hx, hbelow.exists_leading_of_mem hparts x hx⟩⟩, hline, hroot, ?_⟩
  intro source hsource
  obtain ⟨below, hbelow⟩ := hspans
  have hordered : Token.LinesOrdered ts := hsource ▸ linesOrdered_tokenize source
  rw [hwalk below hbelow, List.map_cons, List.map_map, List.pairwise_cons, List.pairwise_map]
  refine ⟨List.forall_mem_map.mpr fun x hx => ?_, hbelow.pairwise_line hparts hordered⟩
  obtain ⟨u, hu, hparen, hline⟩ := hbelow.exists_token_of_mem hparts x hx
  rcases hroot with ⟨rfl, -⟩ | ⟨t, ht, hroot, -⟩
  · exact absurd hu List.not_mem_nil
  · show p.line ≤ x.1.line
    rw [hroot, hline]
    exact hordered.line_leading_le ht hu hparen

/-- A role and a policy with few tokens on a line. -/
def scattered : String :=
  "\nROLE Root\n\x7bcan:\nread, \n\"all\"\x7d DENY\naction: * ON resource: Db IF (\n(\n(a.b)\n" ++
    "* -\n2) + 1\n== c AND\nd < 3)"

/-- Its program, with the lines of the nodes. -/
def scatteredProgram : Program :=
  ofDeclarations [
    .role { name := "Root", actions := .named (.bare "read" 4) [.quoted "all" 5], line := 2 },
    .policy {
      effect := .deny
      actions := .wildcard 6
      resource := "Db"
      condition := some (.and
        (.comparison ⟨.eq,
          .binary .add
            (.binary .mul (.access ⟨"a", "b", 8⟩)
              (.unary .minus (.literal (.number 2 10)) 9) 8)
            (.literal (.number 1 10)) 8,
          .literal (.identifier "c" 11), 8⟩)
        (.comparison ⟨.lt, .literal (.identifier "d" 12), .literal (.number 3 12), 12⟩) 8)
      line := 5 }]

theorem line_exact_scattered :
    parse (tokenize scattered).tokens = .ok scatteredProgram ∧
      (∃ below, Node.Spans (tokenize scattered).tokens (Node.program scatteredProgram).children
        below) ∧
      (Node.program scatteredProgram).walk.map Node.line =
        [2, 2, 4, 5, 5, 6, 8, 8, 8, 8, 8, 9, 10, 10, 11, 12, 12, 12] ∧
      ((Node.program scatteredProgram).walk.map Node.line).Pairwise (· ≤ ·) := by
  have hparse : parse (tokenize scattered).tokens = .ok scatteredProgram := by decide +kernel
  obtain ⟨hspans, -, -, -, hordered⟩ := line_exact hparse
  exact ⟨hparse, hspans, by decide +kernel, hordered scattered rfl⟩

end Program

end AccessPolicy
