import AccessPolicy.Document.Yaml.Stream
import AccessPolicy.Proofs.Document.Yaml.Scalar
import Mathlib.Logic.Relation

/-!
# Cutting one token

Between the tokens of a text in block style, outside all brackets, a stream is known from its
cursor, the columns of the open collections and the tokens so far (`Yaml.Stream.ready`). From one
such stream to the next a token is cut and the blanks behind it are passed over
(`Yaml.Stream.Cuts`), and a run of such steps up to the end of the text gives the tokens
(`Yaml.Stream.run?_of_reaches`).

There is one step here for each sort of token that is written : a scalar that ends its line, a key
and its colon, the dash of an item, and a pair of brackets.
-/

namespace AccessPolicy.Yaml

/-- The cursor is at a column in front of a text. -/
structure Cursor.At (cur : Cursor) (column : Nat) (rest : List Char) : Prop where
  column_eq : cur.place.column = column
  rest_eq : cur.rest = rest

namespace Stream

/-! ## Runs -/

/-- A token is cut and what is between it and the next is passed over. -/
def Cuts (s t : Stream) : Prop :=
  ∃ c cs u, s.cursor.rest = c :: cs ∧ s.cut? c = some u ∧ u.settle? = some t ∧
    t.cursor.rest.length < s.cursor.rest.length

/-- Some tokens are cut. -/
abbrev Reaches : Stream → Stream → Prop :=
  Relation.ReflTransGen Cuts

/-- A run that reaches the end of the text gives the tokens cut on the way. Each takes a character
at least, so the fuel is enough. -/
theorem run?_of_reaches {s t u : Stream} (h : Reaches s t) (ht : t.cursor.rest = [])
    (hu : u.settle? = some s) {fuel : Nat} (hfuel : s.cursor.rest.length < fuel) :
    run? fuel u = (t.closeWhile fun _ => true).giveUp?.map fun s => s.tokens.reverse := by
  induction h using Relation.ReflTransGen.head_induction_on generalizing u fuel with
  | refl =>
    obtain ⟨fuel, rfl⟩ := Nat.exists_eq_add_one_of_ne_zero (Nat.ne_zero_of_lt hfuel)
    rw [run?, hu]
    simp only [ht]
  | head hcuts _ ih =>
    obtain ⟨c, cs, v, hrest, hcut, hsettle, hless⟩ := hcuts
    obtain ⟨fuel, rfl⟩ := Nat.exists_eq_add_one_of_ne_zero (Nat.ne_zero_of_lt hfuel)
    rw [run?, hu]
    simp only [hrest, hcut]
    exact ih hsettle (by omega)

/-! ## Streams between tokens -/

/-- The stream outside brackets, without a candidate, at the cursor. -/
def ready (allowed : Bool) (columns : List Nat) (tokens : List Token) (cur : Cursor) : Stream :=
  ⟨cur, columns, none, [], allowed, tokens, tokens.length⟩

/-- A stream that may have a candidate. -/
def pending (allowed : Bool) (columns : List Nat) (tokens : List Token) (cur : Cursor)
    (k? : Option Candidate) : Stream :=
  { ready allowed columns tokens cur with candidate := k? }

variable {allowed : Bool} {columns : List Nat} {tokens : List Token} {cur next : Cursor}
  {m n : Nat} {text tail rest : List Char} {p : Place} {t : Token} {k? : Option Candidate}

/-- Closing collections that stand no further in than `n` closes none. -/
theorem closeWhile_pending (h : ∀ c ∈ columns.head?, c ≤ n) :
    (pending allowed columns tokens cur k?).closeWhile (n < ·) =
      pending allowed columns tokens cur k? := by
  cases columns with
  | nil => rfl
  | cons c cs =>
    have hc : (decide (n < c)) = false := by simpa using h c rfl
    simp [closeWhile, pending, ready, inFlow, hc]

/-- Closing collections closes the innermost first. -/
theorem closeWhile_cons {q : Nat → Bool} (h : q m = true) :
    (ready allowed (m :: columns) tokens cur).closeWhile q =
      (ready allowed columns (.blockEnd :: tokens) cur).closeWhile q := by
  have hmap : ∀ cs : List Nat, cs.map (fun _ => Token.blockEnd) =
      List.replicate cs.length .blockEnd := fun _ => List.map_const'
  simp only [closeWhile, ready, inFlow, List.takeWhile_cons_of_pos h, List.dropWhile_cons_of_pos h,
    hmap, List.length_cons, List.replicate_succ']
  simp
  omega

/-! ## What is between tokens -/

theorem settled_of_resumes {flow : Bool} (h : Resumes tail) :
    settled flow allowed false p tail = (allowed, ⟨p, tail⟩) := by
  cases tail with
  | nil => rfl
  | cons c cs =>
    obtain ⟨hspace, hsign, hmark⟩ := h c rfl
    obtain ⟨hblank, hbreak⟩ := isSpace_eq_false_iff.mp hspace
    obtain ⟨hc, htab⟩ := isBlank_eq_false_iff.mp hblank
    simp [settled, hbreak, hc, htab, hsign, hmark]

theorem settled_spaces (n : Nat) (h : Resumes tail) :
    settled false allowed false p (List.replicate n ' ' ++ tail) =
      (allowed, ⟨p.past (List.replicate n ' '), tail⟩) := by
  induction n generalizing p with
  | zero => exact settled_of_resumes h
  | succ n ih =>
    rw [List.replicate_succ, List.cons_append, settled, if_neg (by decide), if_pos (by simp), ih]
    rfl

theorem settled_newline (n : Nat) (h : Resumes tail) :
    settled false allowed false p ('\n' :: (List.replicate n ' ' ++ tail)) =
      (true, ⟨p.past ('\n' :: List.replicate n ' '), tail⟩) := by
  rw [settled, if_pos (by decide), Bool.not_false, Bool.or_true, settled_spaces n h]
  rfl

theorem settle?_of_dropStale? {now : Bool} {s : Stream}
    (hsettled : settled false allowed false p rest = (now, next))
    (hdrop : (pending now columns tokens next k?).dropStale? = some s) :
    (pending allowed columns tokens ⟨p, rest⟩ k?).settle? = some (s.closeWhile (s.column < ·)) := by
  have hsettled' : settled (pending allowed columns tokens ⟨p, rest⟩ k?).inFlow
      (pending allowed columns tokens ⟨p, rest⟩ k?).keyAllowed false
      (pending allowed columns tokens ⟨p, rest⟩ k?).cursor.place
      (pending allowed columns tokens ⟨p, rest⟩ k?).cursor.rest = (now, next) := hsettled
  have hmoved : ({ pending allowed columns tokens ⟨p, rest⟩ k? with
      keyAllowed := now, cursor := next } : Stream).dropStale? = some s := hdrop
  rw [settle?]
  simp only [hsettled', hmoved]
  rfl

/-- On another line the stream gives up the candidate, which must not be a required one. -/
theorem dropStale?_of_isStale
    (h : ∀ k ∈ k?, k.required = false ∧ k.isStale cur.place = true) :
    (pending allowed columns tokens cur k?).dropStale? =
      some (ready allowed columns tokens cur) := by
  cases k? with
  | none => rfl
  | some k =>
    obtain ⟨hrequired, hstale⟩ := h k rfl
    simp [dropStale?, pending, ready, hrequired, hstale]

theorem dropStale?_of_not_isStale (h : ∀ k ∈ k?, k.isStale cur.place = false) :
    (pending allowed columns tokens cur k?).dropStale? =
      some (pending allowed columns tokens cur k?) := by
  cases k? with
  | none => rfl
  | some k => simp [dropStale?, pending, ready, h k rfl]

/-! ## Scalars -/

/-- The candidate that starts with the next token, if a key is allowed there. -/
def start? (allowed : Bool) (columns : List Nat) (tokens : List Token) (cur : Cursor) :
    Option Candidate :=
  if allowed then
    some ⟨tokens.length, cur.place, columns.head? = some cur.place.column⟩
  else none

/-- The candidate is kept further on in the line while a key can be that long. -/
theorem not_isStale_start? (hline : p.line = cur.place.line)
    (hoffset : p.offset ≤ cur.place.offset + keyLimit) :
    ∀ k ∈ start? allowed columns tokens cur, k.isStale p = false := by
  intro k hk
  cases allowed with
  | false => exact nomatch hk
  | true =>
    obtain rfl := Option.some.inj hk
    rw [Candidate.isStale, Bool.or_eq_false_iff]
    exact ⟨decide_eq_false (hline ▸ Nat.lt_irrefl _), decide_eq_false (Nat.not_lt.mpr hoffset)⟩

theorem cutNode?_ready : (ready allowed columns tokens cur).cutNode? t next =
    some (pending false columns (t :: tokens) next (start? allowed columns tokens cur)) := by
  cases allowed <;> rfl

theorem isMarker_of_head? {d : Char} (h : cur.rest.head? ≠ some d) : cur.isMarker d = false := by
  have htake : cur.rest.take 3 ≠ [d, d, d] := fun htake => h (by
    simpa [List.head?_take] using congrArg List.head? htake)
  simp [Cursor.isMarker, htake]

theorem cut?_quoted {c : Char} {cs : List Char} (hrest : cur.rest = c :: cs)
    (hc : c = '\'' ∨ c = '"') :
    (ready allowed columns tokens cur).cut? c = (ready allowed columns tokens cur).cutQuoted? := by
  have hmarker : ∀ d, c ≠ d → cur.isMarker d = false := fun d hd =>
    isMarker_of_head? (by simpa [hrest] using hd)
  rcases hc with rfl | rfl
  all_goals
    rw [cut?]
    simp [ready, hmarker '-' (by decide), hmarker '.' (by decide)]

theorem cut?_plain {c : Char} {cs : List Char} (hplain : IsPlain (c :: cs))
    (hmarker : cur.isAnyMarker = false) (hrest : cur.rest = c :: cs ++ rest) :
    (ready allowed columns tokens cur).cut? c = (ready allowed columns tokens cur).cutPlain? := by
  have hother : ∀ d ∈ indicators, c ≠ d := fun d hd hcd => hplain.not_mem_indicators (hcd ▸ hd)
  have hbare : ∀ d, d = '?' ∨ d = ':' ∨ d = '-' →
      (c = d && endsWord (cs ++ rest)) = false := fun d hd => by
    rw [Bool.and_eq_false_imp]
    intro hcd
    exact hplain.endsWord_eq_false (of_decide_eq_true hcd ▸ hd)
  have hstarts : startsPlain false (c :: cs ++ rest) = true := hplain.startsPlain
  rw [Cursor.isAnyMarker, Bool.or_eq_false_iff] at hmarker
  rw [cut?]
  simp only [ready, inFlow, hmarker, hrest, List.cons_append, List.tail_cons, List.isEmpty_nil,
    Bool.not_true, Bool.not_false, Bool.false_or, Bool.and_true, hbare '?' (by simp),
    hbare ':' (by simp), hbare '-' (by simp), hother '%' (by decide), hother '[' (by decide),
    hother ']' (by decide), hother '\x7b' (by decide), hother '\x7d' (by decide),
    hother ',' (by decide), hother '*' (by decide), hother '&' (by decide), hother '!' (by decide),
    hother '|' (by decide), hother '>' (by decide), hother '\'' (by decide),
    hother '"' (by decide), decide_false, Bool.false_and, Bool.or_self, if_false,
    Bool.false_eq_true]
  exact if_pos hstarts

/-- The cursor on the next line, `n` spaces in. -/
def below (cur : Cursor) (text : List Char) (n : Nat) (tail : List Char) : Cursor :=
  ⟨cur.place.past (text ++ '\n' :: List.replicate n ' '), tail⟩

theorem column_below : (below cur text n tail).place.column = n := by
  rw [below, Place.past_append, Place.column_past_margin]

theorem line_lt_below : cur.place.line < (below cur text n tail).place.line := by
  rw [below, Place.past_append]
  exact Nat.lt_of_le_of_lt Place.line_le_past Place.line_lt_past_newline

theorem length_below_lt (hrest : cur.rest = text ++ '\n' :: (List.replicate n ' ' ++ tail)) :
    (below cur text n tail).rest.length < cur.rest.length := by
  simp only [hrest, below, List.length_append, List.length_cons]
  omega

/-- On the next line what started on this one cannot be a key, and the collections are closed that
the next line is outside of. -/
theorem settle?_below {now : Bool} {ts : List Token}
    (hallowed : allowed = true → columns.head? ≠ some cur.place.column)
    (hsettled : settled false now false p rest = (true, below cur text n tail)) :
    (pending now columns ts ⟨p, rest⟩ (start? allowed columns tokens cur)).settle? =
      some ((ready true columns ts (below cur text n tail)).closeWhile (n < ·)) := by
  have hstale : ∀ k ∈ start? allowed columns tokens cur, k.required = false ∧
      k.isStale (below cur text n tail).place = true := by
    intro k hk
    cases allowed with
    | false => exact nomatch hk
    | true =>
      obtain rfl := Option.some.inj hk
      exact ⟨decide_eq_false (hallowed rfl), by simp [Candidate.isStale, line_lt_below]⟩
  refine (settle?_of_dropStale? hsettled (dropStale?_of_isStale hstale)).trans ?_
  simp only [Stream.column, ready, column_below]

/-- A text between quotes is cut if it is read as a scalar. -/
theorem cuts_quoted {c : Char} {cs : List Char} (hc : c = '\'' ∨ c = '"')
    (hallowed : allowed = true → columns.head? ≠ some cur.place.column)
    (hrest : cur.rest = c :: text ++ '\n' :: (List.replicate n ' ' ++ tail))
    (hread : quoted? cur =
      some (cs, ⟨cur.place.past (c :: text), '\n' :: (List.replicate n ' ' ++ tail)⟩))
    (htail : Resumes tail) :
    Cuts (ready allowed columns tokens cur)
      ((ready true columns (.scalar .quoted (String.ofList cs) :: tokens)
        (below cur (c :: text) n tail)).closeWhile (n < ·)) := by
  have hsettled : settled false false false (cur.place.past (c :: text))
      ('\n' :: (List.replicate n ' ' ++ tail)) = (true, below cur (c :: text) n tail) := by
    rw [settled_newline n htail, ← Place.past_append]
    rfl
  have hcut : (ready allowed columns tokens cur).cutQuoted? =
      some (pending false columns (.scalar .quoted (String.ofList cs) :: tokens)
        ⟨cur.place.past (c :: text), '\n' :: (List.replicate n ' ' ++ tail)⟩
        (start? allowed columns tokens cur)) := by
    have hread' : quoted? (ready allowed columns tokens cur).cursor =
        some (cs, ⟨cur.place.past (c :: text), '\n' :: (List.replicate n ' ' ++ tail)⟩) := hread
    rw [cutQuoted?, hread']
    exact cutNode?_ready
  exact ⟨c, _, _, hrest, (cut?_quoted hrest hc).trans hcut, settle?_below hallowed hsettled,
    length_below_lt hrest⟩

/-- A plain text is cut. -/
theorem cuts_plain (h : IsPlain text) (hcolumn : cur.place.column ≠ 0)
    (hleast : (ready allowed columns tokens cur).least ≤ cur.place.column)
    (hallowed : allowed = true → columns.head? ≠ some cur.place.column)
    (hrest : cur.rest = text ++ '\n' :: (List.replicate n ' ' ++ tail))
    (hn : n < (ready allowed columns tokens cur).least) (htail : Resumes tail) :
    Cuts (ready allowed columns tokens cur)
      ((ready true columns (.scalar .plain (String.ofList text) :: tokens)
        (below cur text n tail)).closeWhile (n < ·)) := by
  have hless := length_below_lt hrest
  obtain ⟨c, more, htext⟩ := List.exists_cons_of_ne_nil h.ne_nil
  have hsettled : settled false true false (below cur text n tail).place
      (below cur text n tail).rest = (true, below cur text n tail) := settled_of_resumes htail
  have hcut : (ready allowed columns tokens cur).cutPlain? =
      some (pending true columns (.scalar .plain (String.ofList text) :: tokens)
        (below cur text n tail) (start? allowed columns tokens cur)) := by
    have hread : plain? (ready allowed columns tokens cur).inFlow
        (ready allowed columns tokens cur).least (ready allowed columns tokens cur).cursor =
        some ⟨text, true, below cur text n tail⟩ := plain?_line h hleast hrest hn htail
    rw [cutPlain?, hread, Option.bind_some, cutNode?_ready]
    rfl
  rw [htext, List.cons_append] at hrest
  exact ⟨c, _, _, hrest, (cut?_plain (htext ▸ h) (Cursor.isAnyMarker_of_column hcolumn)
    hrest).trans hcut, settle?_below hallowed hsettled, hless⟩

/-- A scalar is cut that ends with its line, and the collections are closed that the next line is
outside of. -/
theorem cuts_scalar {style : Style} {cs : List Char} (h : Spells text style cs)
    (hcolumn : cur.place.column ≠ 0)
    (hleast : (ready allowed columns tokens cur).least ≤ cur.place.column)
    (hallowed : allowed = true → columns.head? ≠ some cur.place.column)
    (hrest : cur.rest = text ++ '\n' :: (List.replicate n ' ' ++ tail))
    (hn : n < (ready allowed columns tokens cur).least) (htail : Resumes tail) :
    Cuts (ready allowed columns tokens cur)
      ((ready true columns (.scalar style (String.ofList cs) :: tokens)
        (below cur text n tail)).closeWhile (n < ·)) := by
  cases h with
  | plain h => exact cuts_plain h hcolumn hleast hallowed hrest hn htail
  | single h =>
    have hbreak : ∀ c ∈ cs, isBreak c = false := fun c hc => not_isBreak_of_isPrinted (h c hc)
    have hread := quoted?_singleQuoted hrest hbreak (by simp)
    exact cuts_quoted (.inl rfl) hallowed hrest hread htail
  | double cs =>
    exact cuts_quoted (.inr rfl) hallowed hrest (quoted?_doubleQuoted hrest) htail

/-! ## Collections that are opened -/

/-- A collection is open at column `m` already, or it is opened there in front of the next token. -/
inductive Opens (t : Token) (m : Nat) (columns : List Nat) (tokens : List Token) :
    List Nat → List Token → Prop
  | already (h : columns.head? = some m) : Opens t m columns tokens columns tokens
  | anew (h : ∀ c ∈ columns.head?, c < m) : Opens t m columns tokens (m :: columns) (t :: tokens)

theorem Opens.head?_eq {columns' : List Nat} {tokens' : List Token}
    (h : Opens t m columns tokens columns' tokens') : columns'.head? = some m := by
  cases h with
  | already h => exact h
  | anew h => rfl

theorem Opens.le {columns' : List Nat} {tokens' : List Token}
    (h : Opens t m columns tokens columns' tokens') : ∀ c ∈ columns.head?, c ≤ m := by
  intro c hc
  cases h with
  | already h => exact Nat.le_of_eq (Option.some.inj (hc.symm.trans h))
  | anew h => exact Nat.le_of_lt (h c hc)

theorem insert_pending {more : List Token} :
    (pending allowed columns (more ++ tokens) cur k?).insert tokens.length t =
      pending allowed columns (more ++ t :: tokens) cur k? := by
  have hlength : (more ++ tokens).length - tokens.length = more.length := by simp
  simp only [insert, pending, ready, hlength, List.take_left, List.drop_left]
  simp
  omega

theorem openBlock_pending {more : List Token} {columns' : List Nat}
    {tokens' : List Token} (h : Opens t m columns tokens columns' tokens') :
    (pending allowed columns (more ++ tokens) cur k?).openBlock m tokens.length t =
      pending allowed columns' (more ++ tokens') cur k? := by
  rw [openBlock, insert_pending]
  cases h with
  | already h =>
    obtain ⟨rest, rfl⟩ := List.head?_eq_some_iff.mp h
    rw [if_pos]
    simp [least, pending, ready]
  | anew h =>
    have hleast : ¬m < (pending allowed columns (more ++ tokens) cur k?).least := by
      cases columns with
      | nil => exact Nat.not_lt_zero m
      | cons c cs => exact Nat.not_lt.mpr (h c rfl)
    rw [if_neg (by simpa [pending, ready, inFlow] using hleast)]
    rfl

/-! ## Keys -/

section Keys

variable {key after : List Char} {columns' : List Nat} {tokens' : List Token} {now : Bool}

theorem cut?_colon (hrest : cur.rest = ':' :: after)
    (hafter : endsWord after = true) :
    (pending allowed columns tokens cur k?).cut? ':' =
      (pending allowed columns tokens cur k?).cutValue? := by
  have hmarker : ∀ d, ':' ≠ d → cur.isMarker d = false := fun d hd =>
    isMarker_of_head? (by simpa [hrest] using hd)
  rw [cut?]
  simp [pending, ready, hmarker '-' (by decide), hmarker '.' (by decide), hrest, hafter]

/-- A word in front of a colon is cut, and what it may be the key of is remembered. -/
theorem cuts_key (hkey : IsKey key) (hle : ∀ c ∈ columns.head?, c ≤ cur.place.column)
    (hrest : cur.rest = key ++ ':' :: after) (hafter : endsWord after = true) :
    Cuts (ready true columns tokens cur)
      (pending false columns (.scalar .plain (String.ofList key) :: tokens)
        ⟨cur.place.past key, ':' :: after⟩ (start? true columns tokens cur)) := by
  obtain ⟨c, more, htext⟩ := List.exists_cons_of_ne_nil hkey.ne_nil
  have hbreak : ∀ d ∈ key, isBreak d = false := fun d hd =>
    (isSpace_eq_false_iff.mp (hkey.not_isSpace d hd)).2
  have hmarker : cur.isAnyMarker = false := by
    have hhead : ∀ d : Char, d.isLower = false → cur.rest.head? ≠ some d := fun d hd => by
      simpa [hrest, htext] using hkey.ne_of_not_isLower (htext ▸ List.mem_cons_self) hd
    rw [Cursor.isAnyMarker, isMarker_of_head? (hhead '-' rfl), isMarker_of_head? (hhead '.' rfl)]
    rfl
  have hread : plain? (ready true columns tokens cur).inFlow (ready true columns tokens cur).least
      (ready true columns tokens cur).cursor =
      some ⟨key, false, ⟨cur.place.past key, ':' :: after⟩⟩ :=
    plain?_key hkey.isPlain.printed hkey.not_isSpace hkey.isPlain.mark hrest hafter
  have hcut : (ready true columns tokens cur).cutPlain? =
      some (pending false columns (.scalar .plain (String.ofList key) :: tokens)
        ⟨cur.place.past key, ':' :: after⟩ (start? true columns tokens cur)) := by
    rw [cutPlain?, hread, Option.bind_some, cutNode?_ready]
    rfl
  have hsettled : settled false false false (cur.place.past key) (':' :: after) =
      (false, ⟨cur.place.past key, ':' :: after⟩) :=
    settled_of_resumes (by simp [Resumes]; decide)
  have hoffset : (cur.place.past key).offset ≤ cur.place.offset + keyLimit := by
    have hlimit : keyLimit = 4 * 256 := rfl
    have hshort := hkey.short
    have hbytes : (cur.place.past key).offset ≤ cur.place.offset + 4 * key.length :=
      Place.offset_past_le
    omega
  have hfresh : ∀ k ∈ start? true columns tokens cur, k.isStale (cur.place.past key) = false :=
    not_isStale_start? (Place.line_past hbreak) hoffset
  have hcolumn := Place.column_past (p := cur.place) hbreak
  have hdrop : (pending false columns (.scalar .plain (String.ofList key) :: tokens)
      ⟨cur.place.past key, ':' :: after⟩ (start? true columns tokens cur)).dropStale? =
      some (pending false columns (.scalar .plain (String.ofList key) :: tokens)
        ⟨cur.place.past key, ':' :: after⟩ (start? true columns tokens cur)) :=
    dropStale?_of_not_isStale hfresh
  have hsettle := settle?_of_dropStale? hsettled hdrop
  rw [closeWhile_pending fun d hd => by
    have hd := hle d hd
    simp only [Stream.column, pending, ready]
    omega] at hsettle
  rw [htext, List.cons_append] at hrest
  refine ⟨c, _, _, hrest, (cut?_plain (htext ▸ hkey.isPlain) hmarker hrest).trans hcut, hsettle, ?_⟩
  simp only [pending, ready, hrest, List.length_cons, List.length_append]
  omega

/-- A colon is cut, and the key in front of it is announced. -/
theorem cuts_colon (hopens : Opens .blockMapping cur.place.column columns tokens columns' tokens')
    (hafter : endsWord after = true)
    (hnext : settled false false false (p.step ':') after = (now, next))
    (hcolumn : cur.place.column ≤ next.place.column) (hless : next.rest.length ≤ after.length) :
    Cuts (pending false columns (t :: tokens) ⟨p, ':' :: after⟩ (start? true columns tokens cur))
      (ready now columns' (.value :: t :: .key :: tokens') next) := by
  have hinsert : (pending false columns ([t] ++ tokens) ⟨p, ':' :: after⟩
      (start? true columns tokens cur)).insert tokens.length .key =
      pending false columns ([t, .key] ++ tokens) ⟨p, ':' :: after⟩
        (start? true columns tokens cur) := insert_pending
  have hopen : (pending false columns ([t, .key] ++ tokens) ⟨p, ':' :: after⟩
      (start? true columns tokens cur)).openBlock cur.place.column tokens.length .blockMapping =
      pending false columns' ([t, .key] ++ tokens') ⟨p, ':' :: after⟩
        (start? true columns tokens cur) := openBlock_pending hopens
  have hcut : (pending false columns (t :: tokens) ⟨p, ':' :: after⟩
      (start? true columns tokens cur)).cutValue? =
      some (ready false columns' (.value :: t :: .key :: tokens') ⟨p.step ':', after⟩) := by
    have hcandidate : (pending false columns (t :: tokens) ⟨p, ':' :: after⟩
        (start? true columns tokens cur)).candidate =
        some ⟨tokens.length, cur.place, columns.head? = some cur.place.column⟩ := rfl
    rw [cutValue?]
    simp only [hcandidate]
    rw [List.singleton_append] at hinsert
    rw [hinsert, hopen]
    rfl
  have hsettle :
      (ready false columns' (.value :: t :: .key :: tokens') ⟨p.step ':', after⟩).settle? =
      some (ready now columns' (.value :: t :: .key :: tokens') next) := by
    have hdrop : (ready now columns' (.value :: t :: .key :: tokens') next).dropStale? =
        some (ready now columns' (.value :: t :: .key :: tokens') next) := rfl
    refine (settle?_of_dropStale? hnext hdrop).trans ?_
    refine congrArg some (closeWhile_pending fun c hc => ?_)
    obtain rfl := Option.some.inj (hc.symm.trans hopens.head?_eq)
    exact hcolumn
  exact ⟨':', after, _, rfl, (cut?_colon rfl hafter).trans hcut, hsettle,
    Nat.lt_succ_of_le hless⟩

/-- A key and its colon are cut. -/
theorem reaches_key (hkey : IsKey key)
    (hopens : Opens .blockMapping cur.place.column columns tokens columns' tokens')
    (hrest : cur.rest = key ++ ':' :: after) (hafter : endsWord after = true)
    (hnext : settled false false false ((cur.place.past key).step ':') after = (now, next))
    (hcolumn : cur.place.column ≤ next.place.column) (hless : next.rest.length ≤ after.length) :
    Reaches (ready true columns tokens cur)
      (ready now columns' (.value :: .scalar .plain (String.ofList key) :: .key :: tokens') next) :=
  (Relation.ReflTransGen.single (cuts_key hkey hopens.le hrest hafter)).tail
    (cuts_colon hopens hafter hnext hcolumn hless)

end Keys

/-! ## Items -/

/-- The dash of an item is cut. -/
theorem cuts_item {columns' : List Nat} {tokens' : List Token}
    (hopens : Opens .blockSequence cur.place.column columns tokens columns' tokens')
    (hrest : cur.rest = '-' :: ' ' :: tail) (htail : Resumes tail) :
    Cuts (ready true columns tokens cur)
      (ready true columns' (.item :: tokens') ⟨cur.place.past ['-', ' '], tail⟩) := by
  have hmarker : cur.isMarker '-' = false ∧ cur.isMarker '.' = false := by
    simp [Cursor.isMarker, hrest]
  have hcut : (ready true columns tokens cur).cut? '-' =
      (ready true columns tokens cur).cutItem? := by
    rw [cut?]
    simp [ready, hmarker, hrest, endsWord_cons, isSpace, isBlank]
  have hopen : (pending true columns ([] ++ tokens) cur none).openBlock cur.place.column
      tokens.length .blockSequence = pending true columns' ([] ++ tokens') cur none :=
    openBlock_pending hopens
  have hopen' : (ready true columns tokens cur).openBlock (ready true columns tokens cur).column
      (ready true columns tokens cur).count .blockSequence = ready true columns' tokens' cur :=
    hopen
  have hdrop : cur.drop 1 = ⟨cur.place.step '-', ' ' :: tail⟩ := by
    rw [Cursor.drop, hrest]
    rfl
  have hitem : (ready true columns tokens cur).cutItem? =
      some (ready true columns' (.item :: tokens') ⟨cur.place.step '-', ' ' :: tail⟩) := by
    rw [cutItem?, hopen', ← hdrop]
    rfl
  have hsettled : settled false true false (cur.place.step '-') (' ' :: tail) =
      (true, ⟨cur.place.past ['-', ' '], tail⟩) := settled_spaces 1 htail
  have hcolumn : (cur.place.past ['-', ' ']).column = cur.place.column + 2 :=
    Place.column_past (by simp [isBreak])
  have hsettle :
      (ready true columns' (.item :: tokens') ⟨cur.place.step '-', ' ' :: tail⟩).settle? =
      some (ready true columns' (.item :: tokens') ⟨cur.place.past ['-', ' '], tail⟩) := by
    have hkeep : (ready true columns' (.item :: tokens')
        ⟨cur.place.past ['-', ' '], tail⟩).dropStale? =
        some (ready true columns' (.item :: tokens') ⟨cur.place.past ['-', ' '], tail⟩) := rfl
    refine (settle?_of_dropStale? hsettled hkeep).trans ?_
    refine congrArg some (closeWhile_pending fun c hc => ?_)
    obtain rfl := Option.some.inj (hc.symm.trans hopens.head?_eq)
    simp only [Stream.column, ready, hcolumn]
    omega
  refine ⟨'-', ' ' :: tail, _, hrest, hcut.trans hitem, hsettle, ?_⟩
  simp only [ready, hrest, List.length_cons]
  omega

/-! ## Empty collections -/

/-- The brackets of an empty collection and their tokens. -/
def brackets : List (Char × Char × Token × Token) :=
  [('[', ']', .flowSequence, .flowSequenceEnd), ('\x7b', '\x7d', .flowMapping, .flowMappingEnd)]

/-- The stream inside the brackets of an empty collection. -/
def inside (columns : List Nat) (tokens : List Token) (cur : Cursor) (k? : Option Candidate) :
    Stream :=
  { ready true columns tokens cur with outer := [k?] }

theorem settle?_inside {c : Char} (hrest : Resumes (c :: rest))
    (hfresh : ∀ k ∈ k?, k.isStale p = false) :
    (inside columns tokens ⟨p, c :: rest⟩ k?).settle? =
      some (inside columns tokens ⟨p, c :: rest⟩ k?) := by
  have hdrop : (inside columns tokens ⟨p, c :: rest⟩ k?).dropStale? =
      some (inside columns tokens ⟨p, c :: rest⟩ k?) := by
    cases k? with
    | none => rfl
    | some k => simp [dropStale?, inside, ready, hfresh k rfl]
  have hsettled : settled (inside columns tokens ⟨p, c :: rest⟩ k?).inFlow
      (inside columns tokens ⟨p, c :: rest⟩ k?).keyAllowed false
      (inside columns tokens ⟨p, c :: rest⟩ k?).cursor.place
      (inside columns tokens ⟨p, c :: rest⟩ k?).cursor.rest = (true, ⟨p, c :: rest⟩) :=
    settled_of_resumes hrest
  have hmoved : ({ inside columns tokens ⟨p, c :: rest⟩ k? with
      keyAllowed := true, cursor := ⟨p, c :: rest⟩ } : Stream).dropStale? =
      some (inside columns tokens ⟨p, c :: rest⟩ k?) := hdrop
  rw [settle?]
  simp only [hsettled, hmoved]
  rfl

section Brackets

variable {o c : Char} {u : Token} (h : (o, c, t, u) ∈ brackets)

include h

theorem resumes_bracket (rest : List Char) : Resumes (c :: rest) ∧ isBreak o = false := by
  simp only [brackets, List.mem_cons, Prod.mk.injEq, List.not_mem_nil, or_false] at h
  rcases h with ⟨rfl, rfl, rfl, rfl⟩ | ⟨rfl, rfl, rfl, rfl⟩
  all_goals exact ⟨by simp [Resumes]; decide, rfl⟩

theorem cuts_opening (hrest : cur.rest = o :: c :: rest) :
    Cuts (ready allowed columns tokens cur)
      (inside columns (t :: tokens) ⟨cur.place.step o, c :: rest⟩
        (start? allowed columns tokens cur)) := by
  have hmarker : ∀ d, o ≠ d → cur.isMarker d = false := fun d hd =>
    isMarker_of_head? (by simpa [hrest] using hd)
  have hcut : (ready allowed columns tokens cur).cut? o =
      (ready allowed columns tokens cur).cutOpening? t := by
    simp only [brackets, List.mem_cons, Prod.mk.injEq, List.not_mem_nil, or_false] at h
    rw [cut?]
    rcases h with ⟨rfl, rfl, rfl, rfl⟩ | ⟨rfl, rfl, rfl, rfl⟩
    all_goals simp [ready, hmarker '-' (by decide), hmarker '.' (by decide)]
  have hdrop : cur.drop 1 = ⟨cur.place.step o, c :: rest⟩ := by
    rw [Cursor.drop, hrest]
    rfl
  have hopening : (ready allowed columns tokens cur).cutOpening? t =
      some (inside columns (t :: tokens) ⟨cur.place.step o, c :: rest⟩
        (start? allowed columns tokens cur)) := by
    rw [← hdrop]
    cases allowed <;> rfl
  obtain ⟨hresumes, hbreak⟩ := resumes_bracket h rest
  have hfresh : ∀ k ∈ start? allowed columns tokens cur, k.isStale (cur.place.step o) = false := by
    have hlimit : 4 ≤ keyLimit := by decide
    have hsize := o.utf8Size_le_four
    rw [Place.step_of_not_isBreak hbreak]
    exact not_isStale_start? rfl (by dsimp only; omega)
  refine ⟨o, _, _, hrest, hcut.trans hopening, settle?_inside hresumes hfresh, ?_⟩
  simp only [ready, inside, hrest, List.length_cons]
  omega

theorem cuts_closing (hallowed : allowed = true → columns.head? ≠ some cur.place.column)
    (htail : Resumes tail) :
    Cuts (inside columns (t :: tokens)
        ⟨cur.place.step o, c :: '\n' :: (List.replicate n ' ' ++ tail)⟩
        (start? allowed columns tokens cur))
      ((ready true columns (u :: t :: tokens) (below cur [o, c] n tail)).closeWhile (n < ·)) := by
  have hmarker : ∀ d, c ≠ d → Cursor.isMarker
      ⟨cur.place.step o, c :: '\n' :: (List.replicate n ' ' ++ tail)⟩ d = false := fun d hd =>
    isMarker_of_head? (by simpa using hd)
  have hcut : (inside columns (t :: tokens)
      ⟨cur.place.step o, c :: '\n' :: (List.replicate n ' ' ++ tail)⟩
      (start? allowed columns tokens cur)).cut? c =
      some (pending false columns (u :: t :: tokens)
        ⟨(cur.place.step o).step c, '\n' :: (List.replicate n ' ' ++ tail)⟩
        (start? allowed columns tokens cur)) := by
    simp only [brackets, List.mem_cons, Prod.mk.injEq, List.not_mem_nil, or_false] at h
    rw [cut?]
    rcases h with ⟨rfl, rfl, rfl, rfl⟩ | ⟨rfl, rfl, rfl, rfl⟩
    all_goals
      simp only [inside, ready, hmarker '-' (by decide), hmarker '.' (by decide)]
      rfl
  have hsettled : settled false false false ((cur.place.step o).step c)
      ('\n' :: (List.replicate n ' ' ++ tail)) = (true, below cur [o, c] n tail) :=
    settled_newline n htail
  refine ⟨c, _, _, rfl, hcut, settle?_below hallowed hsettled, ?_⟩
  have hcloses : ∀ q, ((ready true columns (u :: t :: tokens) (below cur [o, c] n tail)).closeWhile
      q).cursor = below cur [o, c] n tail := fun _ => rfl
  rw [hcloses]
  simp only [inside, ready, below, List.length_cons, List.length_append]
  omega

/-- An empty pair of brackets is cut. -/
theorem reaches_brackets (hallowed : allowed = true → columns.head? ≠ some cur.place.column)
    (hrest : cur.rest = [o, c] ++ '\n' :: (List.replicate n ' ' ++ tail)) (htail : Resumes tail) :
    Reaches (ready allowed columns tokens cur)
      ((ready true columns (u :: t :: tokens) (below cur [o, c] n tail)).closeWhile (n < ·)) :=
  (Relation.ReflTransGen.single (cuts_opening h hrest)).tail (cuts_closing h hallowed htail)

end Brackets

end Stream

end AccessPolicy.Yaml
