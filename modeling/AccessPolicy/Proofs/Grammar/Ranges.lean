import AccessPolicy.Proofs.Grammar.SyntaxError

/-!
# Pieces by index

`Program.pieces` cuts one piece after the other off the tokens. The pieces can be told all at once
from the indices of the keywords that open declarations : `Program.starts` lists where pieces start,
and a piece goes on to the next start or to the end (`Program.ranges`). Read so, an error takes what
it needs of the tokens behind its piece, or of the last one in it, by index as well
(`Declaration.readRange`). `Program.pieces_eq_map_readRange` says that both ways agree.
-/

namespace AccessPolicy

namespace Program

/-- The indices of the tokens that open a declaration, when the first token has the index `n`. -/
def openings (n : Nat) (tokens : List Token) : List Nat :=
  ((tokens.zipIdx n).filter fun t => t.1.kind.startsDeclaration).map Prod.snd

/-- The indices where pieces start. Tokens before the first that opens a declaration are a piece of
their own. -/
def starts (tokens : List Token) : List Nat :=
  if tokens ≠ [] ∧ (openings 0 tokens).head? ≠ some 0 then 0 :: openings 0 tokens
  else openings 0 tokens

/-- Each of some starts with the next one, the last with `stop`. -/
def spans (starts : List Nat) (stop : Nat) : List (Nat × Nat) :=
  starts.zip (starts.tail ++ [stop])

/-- The ranges of indices of the pieces, up to the first index behind. -/
def ranges (tokens : List Token) : List (Nat × Nat) :=
  spans (starts tokens) tokens.length

end Program

/-- The declaration in a range of the tokens. If the range is too short, the token behind it is what
was found, and an error at the end of all tokens is at the last of the range. -/
def Declaration.readRange (tokens : List Token) (start stop : Nat) :
    Except SyntaxError Declaration :=
  match Reader.wholeDeclaration (tokens.extract start stop) with
  | .done d _ _ => .ok d
  | .stuck rest expected =>
    let found := rest.head?.or tokens[stop]?
    let place := found.or tokens[stop - 1]?
    .error {
      expected := Expectation.collect expected
      found := found
      line := (place.map Token.line).getD 0
      column := (place.map Token.column).getD 0
      context := (tokens[start]?.map fun t => SyntaxError.contextOf t.kind).getD "declaration" }

/-- A piece is read from its range as it is read on its own. -/
theorem Declaration.readRange_append (before : List Token) (first : Token)
    (body after : List Token) :
    readRange (before ++ (first :: body ++ after)) before.length
        (before.length + (first :: body).length) =
      read first body after.head? := by
  have hpiece : (before ++ (first :: body ++ after)).extract before.length
      (before.length + (first :: body).length) = first :: body := by
    rw [List.extract_eq_take_drop, List.drop_left, Nat.add_sub_cancel_left, List.take_left]
  have hfirst : (before ++ (first :: body ++ after))[before.length]? = some first := by simp
  have hbehind : (before ++ (first :: body ++ after))[before.length + (first :: body).length]? =
      after.head? := by
    rw [← List.append_assoc, ← List.length_append, List.getElem?_append_right (Nat.le_refl _),
      Nat.sub_self, List.head?_eq_getElem?]
  have hlast : (before ++ (first :: body ++ after))[before.length + (first :: body).length - 1]? =
      some ((first :: body).getLast (List.cons_ne_nil _ _)) := by
    have hpos : 0 < (first :: body).length := Nat.succ_pos _
    rw [Nat.add_sub_assoc hpos, List.getElem?_append_right (Nat.le_add_right _ _),
      Nat.add_sub_cancel_left, List.getElem?_append_left (Nat.sub_lt hpos Nat.one_pos),
      ← List.getLast?_eq_getElem?, List.getLast?_eq_some_getLast (List.cons_ne_nil _ _)]
  rw [readRange, read, hpiece, hfirst, hbehind, hlast]
  cases Reader.wholeDeclaration (first :: body) with
  | done d rest also => rfl
  | stuck rest expected =>
    simp only [SyntaxError.ofStuck]
    cases rest.head?.or after.head? <;> rfl

namespace Program

/-! ## Starts -/

theorem openings_cons (n : Nat) (t : Token) (ts : List Token) :
    openings n (t :: ts) =
      if t.kind.startsDeclaration then n :: openings (n + 1) ts else openings (n + 1) ts := by
  rw [openings, List.zipIdx_cons, List.filter_cons]
  split <;> rfl

/-- Tokens that open no declaration are passed over. -/
theorem openings_append {body : List Token} (hbody : ∀ t ∈ body, continues t = true) (n : Nat)
    (ts : List Token) : openings n (body ++ ts) = openings (n + body.length) ts := by
  induction body generalizing n with
  | nil => rfl
  | cons t body ih =>
    obtain ⟨ht, hbody⟩ := List.forall_mem_cons.mp hbody
    have hopens : ¬ t.kind.startsDeclaration = true := by simpa [continues] using ht
    rw [List.cons_append, openings_cons, if_neg hopens, ih hbody, List.length_cons,
      Nat.add_right_comm, Nat.add_assoc]

/-- Where pieces start if the first token has the index `n`. -/
def startsFrom (n : Nat) : List Token → List Nat
  | [] => []
  | _ :: ts => n :: openings (n + 1) ts

theorem le_of_mem_openings {n i : Nat} {ts : List Token} (h : i ∈ openings n ts) : n ≤ i := by
  obtain ⟨t, ht, rfl⟩ := List.mem_map.mp h
  exact List.le_snd_of_mem_zipIdx (List.mem_filter.mp ht).1

theorem starts_eq (tokens : List Token) : starts tokens = startsFrom 0 tokens := by
  cases tokens with
  | nil => rfl
  | cons t ts =>
    rw [starts, startsFrom, openings_cons]
    split
    · simp
    · have hhead : (openings 1 ts).head? ≠ some 0 := fun h =>
        absurd (le_of_mem_openings (List.mem_of_head? h)) (by decide)
      rw [if_pos ⟨List.cons_ne_nil _ _, hhead⟩]

/-- What is cut off starts where the next piece does. -/
theorem openings_eq_startsFrom {ts : List Token} (h : ∀ t ∈ ts.head?, continues t = false)
    (n : Nat) : openings n ts = startsFrom n ts := by
  cases ts with
  | nil => rfl
  | cons t ts =>
    have hopens : t.kind.startsDeclaration = true := by simpa [continues] using h t rfl
    rw [openings_cons, if_pos hopens, startsFrom]

/-! ## Ranges -/

theorem spans_cons (start : Nat) (starts : List Nat) (stop : Nat) :
    spans (start :: starts) stop = (start, starts.headD stop) :: spans starts stop := by
  cases starts <;> rfl

/-- The pieces of what stands behind other tokens are read from their ranges in the whole. -/
theorem pieces_eq_map_readRange_append (before ts : List Token) :
    pieces ts = (spans (startsFrom before.length ts) (before ++ ts).length).map
      fun r => Declaration.readRange (before ++ ts) r.1 r.2 := by
  fun_induction pieces ts generalizing before with
  | case1 => rfl
  | case2 t ts ih =>
    have hbody : ∀ b ∈ ts.takeWhile continues, continues b = true :=
      fun b hb => List.all_eq_true.mp List.all_takeWhile b hb
    have hts : ts.takeWhile continues ++ ts.dropWhile continues = ts :=
      List.takeWhile_append_dropWhile
    have hclosed : ∀ u ∈ (ts.dropWhile continues).head?, continues u = false :=
      not_continues_of_mem_head?_dropWhile
    generalize ts.takeWhile continues = body, ts.dropWhile continues = rest at *
    subst hts
    have hlength : (before ++ t :: body).length = before.length + (t :: body).length :=
      List.length_append
    have happend : (before ++ t :: body) ++ rest = before ++ t :: (body ++ rest) := by simp
    have hnext : openings (before.length + 1) (body ++ rest) =
        startsFrom (before ++ t :: body).length rest := by
      rw [openings_append hbody, openings_eq_startsFrom hclosed, hlength, List.length_cons]
      congr 1
      omega
    have hstop : (startsFrom (before ++ t :: body).length rest).headD
        (before ++ t :: (body ++ rest)).length = (before ++ t :: body).length := by
      cases rest with
      | nil => simp [startsFrom]
      | cons u us => rfl
    rw [ih (before ++ t :: body), happend, startsFrom, spans_cons, hnext, hstop, List.map_cons,
      hlength]
    exact congrArg (· :: _) (Declaration.readRange_append before t body rest).symm

/-- The pieces of some tokens are read from the ranges between the keywords that open
declarations. -/
theorem pieces_eq_map_readRange (tokens : List Token) :
    pieces tokens = (ranges tokens).map fun r => Declaration.readRange tokens r.1 r.2 := by
  rw [ranges, starts_eq]
  exact pieces_eq_map_readRange_append [] tokens

end Program

end AccessPolicy
