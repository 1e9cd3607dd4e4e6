import AccessPolicy.Grammar.Parse
import AccessPolicy.Proofs.Grammar.Declaration
import AccessPolicy.Proofs.Span

/-!
# The parser accepts the grammar

A piece of the tokens is read as the declaration that the grammar derives from it, if there is
one (`Declaration.read_eq_ok_iff`). The keywords that open declarations are read by no other
leaf (`Item.Inner`), so the derivation of a program falls into the same pieces as its tokens,
and cutting them first loses nothing : `Program.parse_eq_ok_iff_derives`.
-/

namespace AccessPolicy

open Grammar

/-! ## One declaration -/

namespace Declaration

theorem derives_iff {ts : List Token} {d : Declaration} :
    Derives ts d ↔ Declared.afterAll ts [] d := by
  rw [Phrase.afterAll_iff]
  refine ⟨?_, ?_⟩
  · rintro ⟨s, hs, h⟩
    exact ⟨s, hs, by rwa [List.append_nil]⟩
  · rintro ⟨s, hs, h⟩
    exact ⟨s, hs, by rwa [List.append_nil] at h⟩

theorem exact_declaration (ts : List Token) :
    (Reader.declaration ts).Exact Declared ts :=
  Reader.matches_declaration.exact ts (Nat.lt_succ_self _)

theorem wholeDeclaration_eq (ts : List Token) :
    Reader.wholeDeclaration ts = (Reader.declaration ts).andThen
      fun d => Reader.ending >>= fun _ => pure d := rfl

theorem wholeDeclaration_of_done {ts : List Token} {d : Declaration} {also : List Expectation}
    (h : Reader.declaration ts = .done d [] also) :
    ∃ also', Reader.wholeDeclaration ts = .done d [] also' := by
  rw [wholeDeclaration_eq, h]
  exact ⟨_, rfl⟩

/-- Tokens after a complete declaration are refused : it should have ended there. -/
theorem wholeDeclaration_of_done_cons {ts rest : List Token} {t : Token} {d : Declaration}
    {also : List Expectation} (h : Reader.declaration ts = .done d (t :: rest) also) :
    Reader.wholeDeclaration ts = .stuck (t :: rest) (also ++ [.endOfDeclaration]) := by
  rw [wholeDeclaration_eq, h]
  exact congrArg _ (if_pos rfl)

theorem wholeDeclaration_of_stuck {ts rest : List Token} {expected : List Expectation}
    (h : Reader.declaration ts = .stuck rest expected) :
    Reader.wholeDeclaration ts = .stuck rest expected := by
  rw [wholeDeclaration_eq, h]
  rfl

/-- A piece of the tokens is read as the declaration that it derives. -/
theorem read_eq_ok_iff {first : Token} {body : List Token} {follow : Option Token}
    {d : Declaration} : Declaration.read first body follow = .ok d ↔ Derives (first :: body) d := by
  rw [derives_iff]
  have hexact := exact_declaration (first :: body)
  refine ⟨fun h => ?_, fun h => ?_⟩
  · cases ho : Reader.declaration (first :: body) with
    | stuck rest expected =>
      rw [Declaration.read, wholeDeclaration_of_stuck ho] at h
      simp at h
    | done e rest also =>
      obtain ⟨q, hq, hvalue, -, -⟩ := (ho ▸ hexact).of_done
      cases rest with
      | nil =>
        obtain ⟨also', hwhole⟩ := wholeDeclaration_of_done ho
        rw [Declaration.read, hwhole] at h
        rw [hq, List.append_nil]
        exact (hvalue d).mpr (Except.ok.inj h).symm
      | cons t rest =>
        rw [Declaration.read, wholeDeclaration_of_done_cons ho] at h
        simp at h
  · obtain ⟨also, ho, -⟩ := hexact.eq_done h
    obtain ⟨also', hwhole⟩ := wholeDeclaration_of_done ho
    rw [Declaration.read, hwhole]

end Declaration

/-! ## Programs -/

theorem Item.Inner.continues {i : Item} (h : i.Inner) : Program.continues i.token = true := by
  rw [Program.continues, h _ i.kind_mem_kinds]
  rfl

namespace Program

/-- The tokens of a derivation of declarations start with a keyword that opens one. -/
theorem not_continues_of_derivesAll {ts : List Token} {ds : List Declaration}
    (h : Declaration.DerivesAll ts ds) : ∀ t ∈ ts.head?, continues t = false := by
  obtain ⟨s, rfl, hs⟩ := h
  cases hs with
  | nil => simp
  | cons h _ =>
    obtain ⟨i, u, rfl, hi, -⟩ := exists_opening_of_declared h
    intro t ht
    obtain rfl : i.token = t := by simpa using ht
    simp [continues, hi]

/-- The first declaration is derived from the tokens up to the next keyword, and the others from
those that follow. -/
theorem derivesAll_cons_iff {t : Token} {ts : List Token} {d : Declaration}
    {ds : List Declaration} : Declaration.DerivesAll (t :: ts) (d :: ds) ↔
      Declaration.Derives (t :: ts.takeWhile continues) d ∧
        Declaration.DerivesAll (ts.dropWhile continues) ds := by
  refine ⟨?_, ?_⟩
  · rintro ⟨s, hs, h⟩
    cases h with
    | @cons u v _ _ h hrest =>
      obtain ⟨i, u, rfl, -, hinner⟩ := exists_opening_of_declared h
      have hbody : ∀ b ∈ Item.tokens u, continues b = true := by
        intro b hb
        obtain ⟨j, hj, rfl⟩ := List.mem_map.mp hb
        exact (hinner j hj).continues
      have hnext := not_continues_of_derivesAll ⟨v, rfl, hrest⟩
      simp only [Item.tokens, List.map_append, List.map_cons, List.cons_append,
        List.cons.injEq] at hs
      obtain ⟨rfl, rfl⟩ := hs
      rw [takeWhile_append_of_head? hbody hnext, dropWhile_append_of_head? hbody hnext]
      exact ⟨⟨_, rfl, h⟩, ⟨v, rfl, hrest⟩⟩
  · rintro ⟨⟨s, hs, h⟩, ⟨u, hu, hrest⟩⟩
    refine ⟨s ++ u, ?_, .cons h hrest⟩
    have happend : Item.tokens (s ++ u) = Item.tokens s ++ Item.tokens u := List.map_append
    rw [happend, hs, hu, List.cons_append, List.takeWhile_append_dropWhile]

/-- The pieces of the tokens are read as the declarations that are derived from the whole. -/
theorem pieces_eq_iff (tokens : List Token) (ds : List Declaration) :
    pieces tokens = ds.map .ok ↔ Declaration.DerivesAll tokens ds := by
  fun_induction pieces tokens generalizing ds with
  | case1 =>
    rw [eq_comm, List.map_eq_nil_iff]
    refine ⟨?_, ?_⟩
    · rintro rfl
      exact ⟨[], rfl, .nil⟩
    · rintro ⟨s, hs, h⟩
      cases h with
      | nil => rfl
      | cons h _ =>
        obtain ⟨i, u, rfl, -⟩ := exists_opening_of_declared h
        simp at hs
  | case2 t ts ih =>
    cases ds with
    | nil =>
      refine ⟨fun h => by simp at h, ?_⟩
      rintro ⟨s, hs, h⟩
      cases h
      simp at hs
    | cons d ds =>
      rw [List.map_cons, List.cons.injEq, Declaration.read_eq_ok_iff, ih, derivesAll_cons_iff]

theorem mapM_id_eq_ok_iff {ε α : Type} {rs : List (Except ε α)} {as : List α} :
    rs.mapM id = .ok as ↔ rs = as.map .ok := by
  induction rs generalizing as with
  | nil => simp [pure, Except.pure, eq_comm]
  | cons r rs ih =>
    rw [List.mapM_cons]
    cases r with
    | error e => cases as <;> simp [bind, Except.bind]
    | ok a =>
      cases as with
      | nil => cases rs.mapM id <;> simp [bind, Except.bind, pure, Except.pure]
      | cons b bs =>
        rw [List.map_cons, List.cons.injEq, ← ih]
        cases rs.mapM id <;> simp [bind, Except.bind, pure, Except.pure]

theorem parse_eq_ok_iff {tokens : List Token} {p : Program} :
    parse tokens = .ok p ↔ Derives tokens p := by
  simp only [Derives, ← pieces_eq_iff, ← mapM_id_eq_ok_iff, parse]
  cases (pieces tokens).mapM id <;> simp [Functor.map, Except.map, eq_comm]

/-- The parser gives exactly the programs that the grammar derives from the whole list of
tokens, and the grammar derives at most one. -/
theorem parse_eq_ok_iff_derives (tokens : List Token) :
    (∀ p, parse tokens = .ok p ↔ Derives tokens p) ∧
      ∀ p p', Derives tokens p → Derives tokens p' → p = p' := by
  refine ⟨fun p => parse_eq_ok_iff, fun p p' h h' => ?_⟩
  have hp := parse_eq_ok_iff.mpr h
  rw [parse_eq_ok_iff.mpr h'] at hp
  exact (Except.ok.inj hp).symm

end Program

end AccessPolicy
