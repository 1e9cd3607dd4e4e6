import AccessPolicy.Proofs.Grammar.SyntaxError
import Mathlib.Data.List.Basic
import Mathlib.Data.List.ModifyLast
import Mathlib.Data.List.TakeWhile

/-!
# Recovering from syntax errors

Both ways to parse read the same pieces, so one can be told from the other : the parser that stops
gives the first of the errors that the parser that goes on collects, and the same program if there
is none (`Program.parse_eq_recover`).

A piece knows of the tokens after it only the first, and asks for it only if its own tokens run
out. So tokens that start with a keyword that opens a declaration are parsed as if nothing stood
before them, and what stands before them as if nothing followed, except that an error at the end
is then an error at the keyword (`Program.recover_append`).
-/

namespace AccessPolicy

/-! ## Outcomes in order -/

section Outcomes

variable {ε α : Type}

/-- The error of an outcome, if it is one. -/
def errorOf? : Except ε α → Option ε
  | .error e => some e
  | .ok _ => none

/-- All outcomes together are the first error, or the values if there is no error. -/
theorem mapM_id_eq (rs : List (Except ε α)) :
    rs.mapM id = match rs.filterMap errorOf? with
      | [] => .ok (rs.filterMap Except.toOption)
      | e :: _ => .error e := by
  induction rs with
  | nil => rfl
  | cons r rs ih =>
    rw [List.mapM_cons, ih]
    cases r with
    | error e => rfl
    | ok a =>
      have herrors : (Except.ok a :: rs).filterMap errorOf? = rs.filterMap errorOf? := rfl
      rw [herrors]
      cases rs.filterMap errorOf? <;> rfl

/-- Each outcome is a value or an error. -/
theorem length_filterMap_add (rs : List (Except ε α)) :
    (rs.filterMap Except.toOption).length + (rs.filterMap errorOf?).length = rs.length := by
  induction rs with
  | nil => rfl
  | cons r rs ih =>
    cases r with
    | error e => exact congrArg (· + 1) ih
    | ok a =>
      have hvalues : ((Except.ok a :: rs).filterMap Except.toOption).length =
          (rs.filterMap Except.toOption).length + 1 := rfl
      have herrors : (Except.ok a :: rs).filterMap errorOf? = rs.filterMap errorOf? := rfl
      rw [hvalues, herrors, List.length_cons]
      omega

theorem filterMap_toOption_modifyLast (f : ε → ε) (rs : List (Except ε α)) :
    (rs.modifyLast (Except.mapError f)).filterMap Except.toOption =
      rs.filterMap Except.toOption := by
  rcases List.eq_nil_or_concat' rs with rfl | ⟨init, r, rfl⟩
  · rfl
  · rw [List.modifyLast_concat, List.filterMap_append, List.filterMap_append]
    cases r <;> rfl

/-- To change the last outcome is to change the last error, if no other error would change. -/
theorem filterMap_errorOf?_modifyLast {f : ε → ε} {rs : List (Except ε α)}
    (h : ∀ e, .error e ∈ rs.dropLast → f e = e) :
    (rs.modifyLast (Except.mapError f)).filterMap errorOf? =
      (rs.filterMap errorOf?).modifyLast f := by
  rcases List.eq_nil_or_concat' rs with rfl | ⟨init, r, rfl⟩
  · rfl
  rw [List.modifyLast_concat, List.filterMap_append, List.filterMap_append]
  cases r with
  | error e => exact (List.modifyLast_concat f e _).symm
  | ok a =>
    rw [List.dropLast_concat] at h
    show init.filterMap errorOf? ++ [] = (init.filterMap errorOf? ++ []).modifyLast f
    rw [List.append_nil]
    rcases List.eq_nil_or_concat' (init.filterMap errorOf?) with hnil | ⟨es, e, hconcat⟩
    · rw [hnil]
      rfl
    · have hmem : e ∈ init.filterMap errorOf? := by simp [hconcat]
      obtain ⟨r, hr, hre⟩ := List.mem_filterMap.mp hmem
      cases r with
      | ok a => simp [errorOf?] at hre
      | error e' =>
        obtain rfl : e' = e := Option.some.inj hre
        rw [hconcat, List.modifyLast_concat, h e' hr]

end Outcomes

/-! ## What follows a piece -/

/-- The error when it is known which token follows the tokens : if they ran out, that token is what
was found. -/
def SyntaxError.followedBy (follow : Option Token) (e : SyntaxError) : SyntaxError :=
  match e.found, follow with
  | none, some t => { e with found := some t, line := t.line, column := t.column }
  | _, _ => e

theorem SyntaxError.followedBy_of_found {follow : Option Token} {e : SyntaxError}
    (h : e.found ≠ none) : e.followedBy follow = e := by
  unfold followedBy
  split
  · next hfound => exact absurd hfound h
  · rfl

theorem SyntaxError.ofStuck_followedBy (first : Token) (body rest : List Token)
    (expected : List Expectation) (follow : Option Token) :
    (ofStuck first body rest expected none).followedBy follow =
      ofStuck first body rest expected follow := by
  cases rest <;> cases follow <;> rfl

namespace Declaration

variable {first : Token} {body : List Token} {follow : Option Token}

/-- What follows a piece makes no difference but to an error at its end. -/
theorem mapError_read_none (first : Token) (body : List Token) (follow : Option Token) :
    (Declaration.read first body none).mapError (SyntaxError.followedBy follow) =
      Declaration.read first body follow := by
  unfold Declaration.read
  cases Reader.wholeDeclaration (first :: body) with
  | done d rest also => rfl
  | stuck rest expected =>
    exact congrArg Except.error (SyntaxError.ofStuck_followedBy first body rest expected follow)

/-- A piece with something after it has found something wherever it got stuck. -/
theorem found_of_read_eq_error {t : Token} {e : SyntaxError}
    (h : Declaration.read first body (some t) = .error e) : e.found ≠ none := by
  rw [Declaration.read] at h
  split at h
  · simp at h
  · next rest expected _ =>
    obtain rfl := Except.error.inj h
    cases rest <;> simp [SyntaxError.ofStuck]

end Declaration

namespace Program

theorem pieces_nil : pieces [] = [] := by
  rw [pieces]

theorem pieces_cons (t : Token) (ts : List Token) :
    pieces (t :: ts) =
      Declaration.read t (ts.takeWhile continues) (ts.dropWhile continues).head? ::
        pieces (ts.dropWhile continues) := by
  rw [pieces]

theorem pieces_eq_nil_iff {ts : List Token} : pieces ts = [] ↔ ts = [] := by
  cases ts with
  | nil => simp [pieces_nil]
  | cons t ts => simp [pieces_cons]

/-- Only the last piece runs out of tokens. -/
theorem found_of_mem_dropLast_pieces {ts : List Token} {e : SyntaxError}
    (h : .error e ∈ (pieces ts).dropLast) : e.found ≠ none := by
  fun_induction pieces ts with
  | case1 => simp at h
  | case2 t ts ih =>
    cases hrest : ts.dropWhile continues with
    | nil => simp [hrest, pieces_nil] at h
    | cons u us =>
      have hne : pieces (ts.dropWhile continues) ≠ [] := by simp [pieces_eq_nil_iff, hrest]
      rw [List.dropLast_cons_of_ne_nil hne] at h
      rcases List.mem_cons.mp h with hread | h
      · rw [hrest, List.head?_cons] at hread
        exact Declaration.found_of_read_eq_error hread.symm
      · exact ih h

/-! ## Parsing what comes first and what comes after -/

/-- Tokens that open with a keyword are cut into the same pieces after any others, and cut off the
last piece of those. -/
theorem pieces_append (as : List Token) {bs : List Token}
    (h : ∀ t ∈ bs.head?, continues t = false) :
    pieces (as ++ bs) =
      (pieces as).modifyLast (Except.mapError (SyntaxError.followedBy bs.head?)) ++
        pieces bs := by
  fun_induction pieces as with
  | case1 => rfl
  | case2 t ts ih =>
    rw [List.cons_append, pieces_cons]
    have hspan := List.takeWhile_append_dropWhile (p := continues) (l := ts)
    cases hrest : ts.dropWhile continues with
    | nil =>
      -- The last piece : all its tokens go on with the declaration, and then `bs` follows.
      rw [hrest, List.append_nil] at hspan
      have hbody : ∀ u ∈ ts, continues u = true := List.dropWhile_eq_nil_iff.mp hrest
      rw [takeWhile_append_of_head? hbody h, dropWhile_append_of_head? hbody h, hspan, pieces_nil,
        List.head?_nil]
      show _ = [Except.mapError _ _] ++ _
      rw [Declaration.mapError_read_none]
      rfl
    | cons u us =>
      have hbody : ∀ v ∈ ts.takeWhile continues, continues v = true :=
        List.all_eq_true.mp List.all_takeWhile
      have hnext : ∀ v ∈ (u :: us ++ bs).head?, continues v = false := by
        have hhead := @not_continues_of_mem_head?_dropWhile ts
        simpa [hrest] using hhead
      have happend : ts ++ bs = ts.takeWhile continues ++ (u :: us ++ bs) := by
        rw [← hrest, ← List.append_assoc, hspan]
      have hne : pieces (u :: us) ≠ [] := by simp [pieces_eq_nil_iff]
      rw [happend, takeWhile_append_of_head? hbody hnext, dropWhile_append_of_head? hbody hnext]
      have hlast := List.modifyLast_append_of_right_ne_nil
        (Except.mapError (SyntaxError.followedBy bs.head?))
        [Declaration.read t (ts.takeWhile continues) (u :: us).head?] (pieces (u :: us)) hne
      rw [hrest] at ih
      rw [ih]
      exact (congrArg (· ++ pieces bs) hlast).symm

theorem errors_recover (ts : List Token) :
    (recover ts).errors = (pieces ts).filterMap errorOf? :=
  congrArg (List.filterMap · (pieces ts)) (funext fun r => by cases r <;> rfl)

/-- There is one piece for each keyword that opens a declaration, and one for the tokens before the
first keyword if there are any. -/
theorem length_pieces (ts : List Token) :
    (pieces ts).length =
      ts.countP (fun t => t.kind.startsDeclaration) +
        if ts.head?.any continues then 1 else 0 := by
  fun_induction pieces ts with
  | case1 => rfl
  | case2 t ts ih =>
    have hbody : (ts.takeWhile continues).countP (fun t => t.kind.startsDeclaration) = 0 := by
      rw [List.countP_eq_zero]
      intro u hu
      have hcontinues := List.all_eq_true.mp List.all_takeWhile u hu
      simpa [continues] using hcontinues
    have hnext : (ts.dropWhile continues).head?.any continues = false := by
      cases hhead : (ts.dropWhile continues).head? with
      | none => rfl
      | some u => exact not_continues_of_mem_head?_dropWhile u hhead
    have hcount : ts.countP (fun t => t.kind.startsDeclaration) =
        (ts.dropWhile continues).countP (fun t => t.kind.startsDeclaration) := by
      have hspan := List.takeWhile_append_dropWhile (p := continues) (l := ts)
      calc ts.countP (fun t => t.kind.startsDeclaration)
          = (ts.takeWhile continues ++ ts.dropWhile continues).countP
              (fun t => t.kind.startsDeclaration) := by rw [hspan]
        _ = (ts.dropWhile continues).countP (fun t => t.kind.startsDeclaration) := by
            rw [List.countP_append, hbody, Nat.zero_add]
    rw [List.length_cons, ih, hnext, List.countP_cons, hcount]
    cases hstarts : t.kind.startsDeclaration <;> simp [continues, hstarts]

/-- The parser that stops gives the first error of the parser that goes on, and the same program if
there is none. -/
theorem parse_eq_recover (tokens : List Token) :
    parse tokens = match (recover tokens).errors with
      | [] => .ok (recover tokens).program
      | e :: _ => .error e := by
  rw [parse, mapM_id_eq, errors_recover]
  cases (pieces tokens).filterMap errorOf? <;> rfl

/-- If `bs` is empty or opens with a keyword, the declarations of `as ++ bs` are those of the two
in order. So are the errors, but a last error of `as` that had run out of tokens has found the first
token of `bs` instead. There is one declaration or one error for each keyword, and one for the
tokens before the first keyword if there are any. -/
theorem recover_append :
    (∀ as bs : List Token, (∀ t ∈ bs.head?, t.kind.startsDeclaration = true) →
      (recover (as ++ bs)).program.declarations =
          (recover as).program.declarations ++ (recover bs).program.declarations ∧
        (recover (as ++ bs)).errors =
          (recover as).errors.modifyLast (SyntaxError.followedBy bs.head?) ++
            (recover bs).errors) ∧
      ∀ ts : List Token, (recover ts).program.declarations.length + (recover ts).errors.length =
        ts.countP (fun t => t.kind.startsDeclaration) +
          if ts.head?.any (fun t => !t.kind.startsDeclaration) then 1 else 0 := by
  refine ⟨fun as bs h => ?_, fun ts => ?_⟩
  · have hopens : ∀ t ∈ bs.head?, continues t = false := fun t ht => by simp [continues, h t ht]
    refine ⟨?_, ?_⟩
    · show (pieces (as ++ bs)).filterMap Except.toOption = _
      rw [pieces_append as hopens, List.filterMap_append, filterMap_toOption_modifyLast]
      rfl
    · have hothers : ∀ e, .error e ∈ (pieces as).dropLast → e.followedBy bs.head? = e :=
        fun e he => SyntaxError.followedBy_of_found (found_of_mem_dropLast_pieces he)
      rw [errors_recover, pieces_append as hopens, List.filterMap_append,
        filterMap_errorOf?_modifyLast hothers, ← errors_recover, ← errors_recover]
  · rw [errors_recover]
    exact (length_filterMap_add (pieces ts)).trans (length_pieces ts)

/-- The start of a policy. -/
def policyStart : List Token :=
  [⟨.allow, .text "ALLOW", 1, 1⟩, ⟨.action, .text "action", 1, 7⟩]

/-- A whole user. -/
def wholeUser : List Token :=
  [⟨.user, .text "USER", 2, 1⟩, ⟨.identifier, .text "Bob", 2, 6⟩, ⟨.lbrace, .text "\x7b", 2, 10⟩,
    ⟨.identifier, .text "role", 2, 11⟩, ⟨.colon, .text ":", 2, 15⟩,
    ⟨.identifier, .text "Admin", 2, 17⟩, ⟨.rbrace, .text "\x7d", 2, 22⟩]

theorem recover_append_wholeUser : (∀ t ∈ wholeUser.head?, t.kind.startsDeclaration = true) ∧
    (recover policyStart).errors = [⟨[.kind .colon], none, 1, 7, "policy definition"⟩] ∧
    (recover (policyStart ++ wholeUser)).errors = [⟨[.kind .colon],
      some ⟨.user, .text "USER", 2, 1⟩, 2, 1, "policy definition"⟩] ∧
    (recover (policyStart ++ wholeUser)).program.declarations = [.user ⟨"Bob", "Admin", 2⟩] := by
  have hopens : ∀ t ∈ wholeUser.head?, t.kind.startsDeclaration = true := by
    intro t ht
    obtain rfl := Option.some.inj ht
    rfl
  have hstart : recover policyStart =
      ⟨ofDeclarations [], [⟨[.kind .colon], none, 1, 7, "policy definition"⟩]⟩ := by
    with_unfolding_all rfl
  have huser : recover wholeUser = ⟨ofDeclarations [.user ⟨"Bob", "Admin", 2⟩], []⟩ := by
    with_unfolding_all rfl
  obtain ⟨hdeclarations, herrors⟩ := recover_append.1 policyStart wholeUser hopens
  rw [hstart, huser] at hdeclarations herrors
  exact ⟨hopens, congrArg Recovered.errors hstart, herrors, hdeclarations⟩

end Program

end AccessPolicy
