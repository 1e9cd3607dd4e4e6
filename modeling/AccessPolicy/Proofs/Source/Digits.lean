import AccessPolicy.Proofs.Source.Coverage
import AccessPolicy.Proofs.Source.Restart
import AccessPolicy.Proofs.Text.Decimal

/-!
# Runs of digits

A stream is followed here lexeme by lexeme (`TokenStream.steps`), so that one can look at it right
before a run of digits and right after. No lexeme ends in a digit where another digit follows
(`Lexeme.Longest.not_isDecimal`), so a stream never comes to stand inside a run of digits
(`TokenStream.StandsBetween`), and every lexeme of digits is a whole run.

The run writes a number, whatever zeros it starts with. `TokenStream.digits_exact` says what it
gives : the number as a token if it fits a signed word of 64 bits, and otherwise a diagnostic that
shows the run as it is written, with the lookback left alone.
-/

namespace AccessPolicy

namespace TokenStream

variable {source : String} {s : TokenStream} {l : Lexeme.Placed} {rest : List Char}

/-! ## Lexeme by lexeme -/

/-- One lexeme read : the token it gives, if any, and the stream after it. -/
def step (s : TokenStream) : Option Token × TokenStream :=
  match Lexeme.next? s.position s.rest with
  | none => (none, s.drained)
  | some (l, rest) =>
    match Lexeme.read s.lookback l with
    | .nothing => (none, s.after l rest)
    | .problem d => (none, (s.after l rest).report d)
    | .token t => (some t, { s.after l rest with lookback := some t.kind })

/-- The tokens that `k` lexemes give, and the stream after them. -/
def steps (s : TokenStream) : Nat → List Token × TokenStream
  | 0 => ([], s)
  | k + 1 => (s.step.1.toList ++ (s.step.2.steps k).1, (s.step.2.steps k).2)

theorem step_of_none (h : Lexeme.next? s.position s.rest = none) : s.step = (none, s.drained) := by
  rw [step, h]

theorem step_of_nothing (h : Lexeme.next? s.position s.rest = some (l, rest))
    (hl : Lexeme.read s.lookback l = .nothing) : s.step = (none, s.after l rest) := by
  simp only [step, h, hl]

theorem step_of_problem {d : Diagnostic} (h : Lexeme.next? s.position s.rest = some (l, rest))
    (hl : Lexeme.read s.lookback l = .problem d) : s.step = (none, (s.after l rest).report d) := by
  simp only [step, h, hl]

theorem step_of_token {t : Token} (h : Lexeme.next? s.position s.rest = some (l, rest))
    (hl : Lexeme.read s.lookback l = .token t) :
    s.step = (some t, { s.after l rest with lookback := some t.kind }) := by
  simp only [step, h, hl]

/-- Whatever a lexeme gives, the stream goes on behind it. -/
theorem position_rest_step (h : Lexeme.next? s.position s.rest = some (l, rest)) :
    s.step.2.position = l.stop ∧ s.step.2.rest = rest := by
  cases hl : Lexeme.read s.lookback l with
  | nothing => rw [step_of_nothing h hl]; exact ⟨rfl, rfl⟩
  | problem d => rw [step_of_problem h hl]; exact ⟨rfl, rfl⟩
  | token t => rw [step_of_token h hl]; exact ⟨rfl, rfl⟩

theorem tokens_eq_step_append (s : TokenStream) :
    s.tokens = (s.step.1.toList ++ s.step.2.tokens.1, s.step.2.tokens.2) := by
  cases h : Lexeme.next? s.position s.rest with
  | none =>
    have hdrained : s.drained.tokens = ([], s.drained) :=
      tokens_of_next_none (next_of_next_eq_none (next_of_none h))
    rw [step_of_none h, tokens_of_next_none (next_of_none h), hdrained]
    rfl
  | some r =>
    obtain ⟨l, rest⟩ := r
    cases hl : Lexeme.read s.lookback l with
    | nothing => rw [step_of_nothing h hl, tokens_of_next_eq (next_of_nothing h hl)]; rfl
    | problem d => rw [step_of_problem h hl, tokens_of_next_eq (next_of_problem h hl)]; rfl
    | token t => rw [step_of_token h hl, tokens_of_next_some (next_of_token h hl)]; rfl

theorem tokens_eq_steps_append (s : TokenStream) (k : Nat) :
    s.tokens = ((s.steps k).1 ++ (s.steps k).2.tokens.1, (s.steps k).2.tokens.2) := by
  induction k generalizing s with
  | zero => rfl
  | succ k ih => rw [steps, tokens_eq_step_append, ih s.step.2, List.append_assoc]

theorem scan_step (s : TokenStream) :
    Lexeme.scan s.step.2.position s.step.2.rest = (Lexeme.scan s.position s.rest).tail := by
  cases h : Lexeme.next? s.position s.rest with
  | none =>
    rw [step_of_none h, Lexeme.scan_of_none h]
    exact Lexeme.scan_of_none rfl
  | some r =>
    obtain ⟨hposition, hrest⟩ := position_rest_step h
    rw [hposition, hrest, Lexeme.scan_of_some h, List.tail_cons]

/-- After `k` steps the first `k` lexemes have been read. -/
theorem scan_steps (s : TokenStream) (k : Nat) :
    Lexeme.scan (s.steps k).2.position (s.steps k).2.rest =
      (Lexeme.scan s.position s.rest).drop k := by
  induction k generalizing s with
  | zero => rfl
  | succ k ih => rw [steps, ih, scan_step, List.drop_tail]

theorem exists_next?_of_getElem? {k : Nat}
    (h : (Lexeme.scan s.position s.rest)[k]? = some l) :
    ∃ rest, Lexeme.next? (s.steps k).2.position (s.steps k).2.rest = some (l, rest) := by
  have hhead : (Lexeme.scan (s.steps k).2.position (s.steps k).2.rest).head? = some l := by
    rw [scan_steps, List.head?_drop, h]
  cases hnext : Lexeme.next? (s.steps k).2.position (s.steps k).2.rest with
  | none => simp [Lexeme.scan_of_none hnext] at hhead
  | some r =>
    rw [Lexeme.scan_of_some hnext, List.head?_cons] at hhead
    exact ⟨r.2, by rw [← Option.some.inj hhead]⟩

end TokenStream

/-! ## Whole runs -/

namespace Lexeme

instance (c : Char) : Decidable (IsDecimal c) :=
  inferInstanceAs (Decidable (_ ∧ _))

theorem not_isDecimal_of_isBlank {c : Char} (h : isBlank c = true) : ¬ IsDecimal c := fun hc => by
  rw [isBlank_of_isDigit (isDigit_iff.mpr hc)] at h
  exact Bool.false_ne_true h

/-- A lexeme that ends in a digit could go on with another. -/
theorem Shape.pattern_concat {s : Shape} {cs : List Char} {c d : Char} (h : s.Pattern cs)
    (hlast : cs.getLast? = some c) (hc : IsDecimal c) (hd : IsDecimal d) :
    s.Pattern (cs ++ [d]) := by
  have hother : ∀ {x y : Char}, IsDecimal x → ¬ IsDecimal y → x ≠ y := fun hx hy hxy => hy (hxy ▸ hx)
  cases s with
  | newlines =>
    have hnewline : c = '\n' := h.2 c (List.mem_of_getLast? hlast)
    exact absurd hnewline (hother hc (by decide))
  | word =>
    obtain ⟨x, xs, rfl, hx, hxs⟩ := h
    exact ⟨x, xs ++ [d], rfl, hx, List.forall_mem_append.mpr ⟨hxs, by simp [hd]⟩⟩
  | digits => exact ⟨by simp, List.forall_mem_append.mpr ⟨h.2, by simp [hd]⟩⟩
  | quoted =>
    obtain ⟨xs, rfl, -⟩ := h
    have hquote : c = '"' := by
      rw [List.getLast?_concat] at hlast
      exact (Option.some.inj hlast).symm
    exact absurd hquote (hother hc (by decide))
  | unterminated =>
    obtain ⟨xs, rfl, hxs⟩ := h
    refine ⟨xs ++ [d], rfl, List.forall_mem_append.mpr ⟨hxs, List.forall_mem_singleton.mpr ?_⟩⟩
    exact ⟨hother hd (by decide), hother hd (by decide)⟩
  | symbol s =>
    obtain rfl : cs = s.chars := h
    have hplain : ∀ x ∈ s.chars, ¬ IsDecimal x := by
      cases s <;> simp [Symbol.chars, IsDecimal]
    exact absurd hc (hplain c (List.mem_of_getLast? hlast))
  | illegal => exact False.elim h

/-- No lexeme ends in a digit where another digit follows. -/
theorem Longest.not_isDecimal {l : Lexeme} {rest : List Char} {c d : Char} (h : l.Longest rest)
    (hlast : l.text.getLast? = some c) (hc : IsDecimal c) (hhead : rest.head? = some d) :
    ¬ IsDecimal d := by
  intro hd
  obtain ⟨more, rfl⟩ := List.head?_eq_some_iff.mp hhead
  rcases h with ⟨hpattern, hlongest⟩ | ⟨-, hlength, hnone⟩
  · have hprefix : l.text ++ [d] <+: l.text ++ d :: more := ⟨more, by simp⟩
    rcases hlongest l.shape _ (Shape.pattern_concat hpattern hlast hc hd) hprefix with heq | hlt
    · have := congrArg (List.length ∘ Lexeme.text) heq
      simp at this
    · simp at hlt
  · -- A digit that stands alone would be a run of its own.
    obtain ⟨x, hx⟩ := List.length_eq_one_iff.mp hlength
    obtain rfl : x = c := by simpa [hx] using hlast
    refine hnone .digits [x] ⟨by simp, by simpa using hc⟩ ?_
    rw [hx]
    exact List.prefix_append _ _

/-- The lexeme is a run of digits of a text that is read from the byte `start` on, and the whole of
it : no digit comes right after it, and none right before it that is read. -/
def Placed.IsDigitRun (source : String) (start : Nat) (l : Placed) : Prop :=
  ∃ before after, source.toList = before ++ (l.lexeme.text ++ after) ∧
    l.start = Position.start.past before ∧ l.lexeme.text ≠ [] ∧
    (∀ c ∈ l.lexeme.text, IsDecimal c) ∧ (∀ d, after.head? = some d → ¬ IsDecimal d) ∧
    (l.start.offset = start ∨ ∀ c, before.getLast? = some c → ¬ IsDecimal c)

end Lexeme

namespace TokenStream

variable {source : String} {start : Nat} {s : TokenStream}

/-- The stream stands in the text, and not inside a run of digits unless it starts there. -/
def StandsBetween (source : String) (start : Nat) (s : TokenStream) : Prop :=
  ∃ before, source.toList = before ++ s.rest ∧ s.position = Position.start.past before ∧
    (s.offset = start ∨ ∀ c d, before.getLast? = some c → Lexeme.IsDecimal c →
      s.rest.head? = some d → ¬ Lexeme.IsDecimal d)

theorem StandsBetween.step (h : s.StandsBetween source start) :
    s.step.2.StandsBetween source start := by
  obtain ⟨before, hsource, hposition, -⟩ := h
  cases hnext : Lexeme.next? s.position s.rest with
  | none =>
    rw [step_of_none hnext]
    exact ⟨before ++ s.rest, by simp [drained, hsource], by simp [drained, hposition],
      Or.inr fun c d _ _ hd => by simp [drained] at hd⟩
  | some r =>
    obtain ⟨l, rest⟩ := r
    obtain ⟨gap, c, more, -, hrest, hstart, hmunch⟩ := Lexeme.exists_gap_of_next? hnext
    obtain ⟨hstop, htail⟩ := position_rest_step hnext
    have hlongest := Lexeme.longest_munch c more
    obtain ⟨tail, htext⟩ := Lexeme.exists_text_munch c more
    simp only [hmunch] at hlongest htext
    refine ⟨before ++ gap ++ l.lexeme.text, ?_, ?_, Or.inr fun x d hlast hx hd => ?_⟩
    · simp [hsource, hrest, htail]
    · rw [hstop, Lexeme.Placed.stop, hstart, hposition, Position.past_append, Position.past_append]
    · rw [List.getLast?_append_of_ne_nil _ (by simp [htext])] at hlast
      exact hlongest.not_isDecimal hlast hx (htail ▸ hd)

theorem StandsBetween.steps (h : s.StandsBetween source start) (k : Nat) :
    (s.steps k).2.StandsBetween source start := by
  induction k generalizing s with
  | zero => exact h
  | succ k ih => exact ih h.step

theorem standsBetween_startingAt (source : String) (offset : Nat) :
    (startingAt source offset).StandsBetween source (startingAt source offset).offset :=
  ⟨_, (cutAtByte_append offset source.toList).symm, rfl, Or.inl rfl⟩

/-- The next lexeme of a stream that stands between runs of digits is a whole run if it is one of
digits. -/
theorem StandsBetween.isDigitRun {l : Lexeme.Placed} {rest : List Char}
    (h : s.StandsBetween source start) (hnext : Lexeme.next? s.position s.rest = some (l, rest))
    (hl : l.lexeme.shape = .digits) : l.IsDigitRun source start := by
  obtain ⟨before, hsource, hposition, hseam⟩ := h
  obtain ⟨gap, c, more, hgap, hrest, hstart, hmunch⟩ := Lexeme.exists_gap_of_next? hnext
  have hlongest := Lexeme.longest_munch c more
  have hproper := Lexeme.proper_munch c more
  obtain ⟨tail, htext⟩ := Lexeme.exists_text_munch c more
  simp only [hmunch] at hlongest hproper htext
  have hne : l.lexeme.text ≠ [] := by simp [htext]
  have hpattern := hproper.pattern hne (by simp [hl])
  rw [hl] at hpattern
  refine ⟨before ++ gap, rest, by simp [hsource, hrest], by simp [hstart, hposition], hne,
    hpattern.2, fun d hd => ?_, ?_⟩
  · have hlast := List.getLast?_eq_some_getLast hne
    exact hlongest.not_isDecimal hlast (hpattern.2 _ (List.getLast_mem hne)) hd
  · rcases List.eq_nil_or_concat gap with rfl | ⟨gap, b, rfl⟩
    · refine hseam.imp (fun hs => ?_) fun hs x hx hdx => ?_
      · rw [hstart]
        exact hs
      · have hhead : s.rest.head? = some c := by simp [hrest, htext]
        exact hs x c (by simpa using hx) hdx hhead (hpattern.2 c (by simp [htext]))
    · refine Or.inr fun x hx => ?_
      obtain rfl : b = x := by simpa using hx
      exact Lexeme.not_isDecimal_of_isBlank (hgap b (by simp))

/-! ## What a run gives -/

/-- The diagnostic for a run of digits that writes too large a number. -/
def outOfRange (l : Lexeme.Placed) : Diagnostic :=
  ⟨.invalidNumber, "integer literal " ++ String.ofList l.lexeme.text ++ " is out of range",
    l.start.line, l.start.column⟩

theorem step_of_fits {l : Lexeme.Placed} {rest : List Char} {n : Nat}
    (h : Lexeme.next? s.position s.rest = some (l, rest)) (hl : l.lexeme.shape = .digits)
    (hwrites : Writes l.lexeme.text n) (hn : n ≤ maxInt64) :
    s.step = (some ⟨.number, .number n, l.start.line, l.start.column⟩,
      { s.after l rest with lookback := some .number }) := by
  refine step_of_token h ?_
  simp only [Lexeme.read, hl, hwrites.ofDigitChars, if_pos hn]

theorem step_of_large {l : Lexeme.Placed} {rest : List Char} {n : Nat}
    (h : Lexeme.next? s.position s.rest = some (l, rest)) (hl : l.lexeme.shape = .digits)
    (hwrites : Writes l.lexeme.text n) (hn : ¬ n ≤ maxInt64) :
    s.step = (none, (s.after l rest).report (outOfRange l)) := by
  refine step_of_problem h ?_
  simp only [Lexeme.read, hl, hwrites.ofDigitChars, if_neg hn]
  rfl

/-- A lexeme of digits, the one after the first `k`, is a whole run, and the run writes a number
`n`. The stream `u` has read the lexemes ahead of it and the stream `v` the run as well; all tokens
and diagnostics are those of `u`, what the run gives, and those that `v` goes on to give. A number
up to `2 ^ 63 - 1` is what the digits come to in signed words of 64 bits, and it is given as one
token without a diagnostic. A greater number leaves the words, and gives no token but one
diagnostic, at the first digit, that shows the run; the lookback stays as it was. -/
theorem digits_exact {source : String} {offset k : Nat} {l : Lexeme.Placed}
    (h : (Lexeme.scan (startingAt source offset).position
      (startingAt source offset).rest)[k]? = some l)
    (hl : l.lexeme.shape = .digits) :
    let s := startingAt source offset
    let u := (s.steps k).2
    let v := u.step.2
    l.IsDigitRun source s.offset ∧
      Lexeme.scan u.position u.rest = (Lexeme.scan s.position s.rest).drop k ∧
      Lexeme.scan v.position v.rest = (Lexeme.scan s.position s.rest).drop (k + 1) ∧
      s.tokens.1 = (s.steps k).1 ++ u.step.1.toList ++ v.tokens.1 ∧
      s.tokens.2.diagnostics =
        v.diagnostics ++ v.readings.filterMap Lexeme.Reading.problem? ∧
      ∃ n, Writes l.lexeme.text n ∧
        (n ≤ 2 ^ 63 - 1 → (word? l.lexeme.text).map BitVec.toInt = some (n : Int) ∧
          u.step.1 = some ⟨.number, .number n, l.start.line, l.start.column⟩ ∧
          v.diagnostics = u.diagnostics ∧ v.lookback = some .number) ∧
        (2 ^ 63 - 1 < n → word? l.lexeme.text = none ∧ u.step.1 = none ∧
          v.diagnostics = u.diagnostics ++ [⟨.invalidNumber, "integer literal " ++
            String.ofList l.lexeme.text ++ " is out of range", l.start.line, l.start.column⟩] ∧
          v.lookback = u.lookback) := by
  intro s u v
  obtain ⟨rest, hnext⟩ := exists_next?_of_getElem? h
  have hrun : l.IsDigitRun source s.offset :=
    ((standsBetween_startingAt source offset).steps k).isDigitRun hnext hl
  have htokens : s.tokens = ((s.steps k).1 ++ u.step.1.toList ++ v.tokens.1, v.tokens.2) := by
    rw [tokens_eq_steps_append s k, tokens_eq_step_append u, List.append_assoc]
  have hv : Lexeme.scan v.position v.rest = (Lexeme.scan s.position s.rest).drop (k + 1) := by
    rw [scan_step u, scan_steps, List.tail_drop]
  have ⟨_, _, _, _, hne, hdecimal, _⟩ := hrun
  have hdigits : ∀ c ∈ l.lexeme.text, c.isDigit = true :=
    fun c hc => Lexeme.isDigit_iff.mpr (hdecimal c hc)
  obtain ⟨n, hn⟩ := exists_writes hne hdigits
  have hword := toInt_word? hdigits
  rw [hn.ofDigitChars] at hword
  refine ⟨hrun, scan_steps s k, hv, by rw [htokens], by rw [htokens, v.tokens_eq_readings.2], n, hn,
    fun hfits => ?_, fun hlarge => ?_⟩
  · have hstep : u.step = _ := step_of_fits hnext hl hn hfits
    exact ⟨hword.trans (if_pos hfits), congrArg Prod.fst hstep,
      congrArg (diagnostics ∘ Prod.snd) hstep, congrArg (lookback ∘ Prod.snd) hstep⟩
  · have hover : ¬ n ≤ maxInt64 := Nat.not_le.mpr hlarge
    have hstep : u.step = _ := step_of_large hnext hl hn hover
    rw [if_neg hover, Option.map_eq_none_iff] at hword
    exact ⟨hword, congrArg Prod.fst hstep, congrArg (diagnostics ∘ Prod.snd) hstep,
      congrArg (lookback ∘ Prod.snd) hstep⟩

/-- The greatest number that a token can have and the least that none can, both after zeros. -/
def atTheEdge : String :=
  "0009223372036854775807 : 09223372036854775808 *"

/-- The second number gives no token, and the `*` still follows the colon. -/
theorem digits_exact_atTheEdge :
    let s := startingAt atTheEdge 0
    let ls := Lexeme.scan s.position s.rest
    (∃ l, ls[0]? = some l ∧ Writes l.lexeme.text (2 ^ 63 - 1) ∧
      s.step.1 = some ⟨.number, .number (2 ^ 63 - 1 : Nat), 1, 1⟩) ∧
    (∃ l, ls[2]? = some l ∧ Writes l.lexeme.text (2 ^ 63) ∧
      (s.steps 2).2.step.1 = none ∧ (s.steps 2).2.step.2.lookback = some .colon) := by
  intro s ls
  have hfirst : ls[0]? = some ⟨⟨.digits, "0009223372036854775807".toList⟩, ⟨0, 1, 1⟩⟩ := by
    decide +kernel
  have hthird : ls[2]? = some ⟨⟨.digits, "09223372036854775808".toList⟩, ⟨25, 1, 26⟩⟩ := by
    decide +kernel
  obtain ⟨-, -, -, -, -, m, hm, hfits, -⟩ := digits_exact hfirst rfl
  obtain rfl : 2 ^ 63 - 1 = m := Eq.trans (by decide +kernel) hm.ofDigitChars
  obtain ⟨-, -, -, -, -, n, hn, -, hlarge⟩ := digits_exact hthird rfl
  obtain rfl : 2 ^ 63 = n := Eq.trans (by decide +kernel) hn.ofDigitChars
  obtain ⟨-, htoken, -⟩ := hfits (by decide)
  obtain ⟨-, hnone, -, hlookback⟩ := hlarge (by decide)
  have hcolon : (s.steps 2).2.lookback = some .colon := by decide +kernel
  exact ⟨⟨_, hfirst, hm, htoken⟩, _, hthird, hn, hnone, hlookback.trans hcolon⟩

end TokenStream

end AccessPolicy
