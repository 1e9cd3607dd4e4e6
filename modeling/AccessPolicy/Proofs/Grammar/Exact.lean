import AccessPolicy.Grammar.Reader
import AccessPolicy.Proofs.Grammar.Phrase

/-!
# Exact reading

A reader is exact for a phrase if it goes as far along its tokens as the phrase can be said,
and tells the truth about where it stops (`Outcome.Exact`) : it is done if the tokens so far
are complete, with their only value, and stuck if they are not; and the leaves it names are
those that could have come next, all of them and no others.

Sequences and choices of exact readers are exact if no token leaves open which way to go. A
`Shape` keeps what has to be known for that : whether the phrase can be empty, the leaves it
can start with, and the leaves that can carry it on where it could also end. `Reader.Matches`
is exactness with a shape, and each way to build a reader has its rule (`Matches.bind`,
`Matches.or`, `Matches.optional`, `Matches.many`, `Matches.chain`), whose only condition is
that two lists of leaves accept no common token (`Separate`).
-/

namespace AccessPolicy

variable {α β : Type}

/-! ## Exact outcomes -/

/-- The outcome of reading `ts` says how far the phrase `P` can be said along them, what it
stands for there and what could have come next. -/
inductive Outcome.Exact : Phrase α → List Token → Outcome α → Prop
  | read {P : Phrase α} {t : Token} {ts : List Token} {o : Outcome α}
    (hpossible : (P.after t).Possible) (h : Exact (P.after t) ts o) : Exact P (t :: ts) o
  | done {P : Phrase α} {ts : List Token} {a : α} {also : List Expectation}
    (hvalue : ∀ b, P [] b ↔ b = a) (hnext : ∀ x, x ∈ also ↔ P.Next x)
    (hblocked : ∀ t ∈ ts.head?, ¬ (P.after t).Possible) : Exact P ts (.done a ts also)
  | stuck {P : Phrase α} {ts : List Token} {expected : List Expectation}
    (hpossible : P.Possible) (hvalue : ∀ b, ¬ P [] b) (hnext : ∀ x, x ∈ expected ↔ P.Next x)
    (hblocked : ∀ t ∈ ts.head?, ¬ (P.after t).Possible) : Exact P ts (.stuck ts expected)

namespace Outcome

/-- The tokens that were not read. -/
def rest : Outcome α → List Token
  | done _ rest _ => rest
  | stuck rest _ => rest

/-- The outcome with its value changed. -/
def map (f : α → β) : Outcome α → Outcome β
  | done a rest also => done (f a) rest also
  | stuck rest expected => stuck rest expected

/-- An outcome of reading `ts` that may also be to read nothing, for the value `a`. -/
def orNothing (ts : List Token) (a : α) : Outcome α → Outcome α
  | done b rest also => done b rest also
  | stuck rest expected =>
    if rest.length = ts.length then done a ts expected else stuck rest expected

/-- Read on with `f` where the outcome is done. -/
def andThen (f : α → Reader β) : Outcome α → Outcome β
  | done a rest also => (f a rest).after rest also
  | stuck rest expected => stuck rest expected

/-- The leaves that an outcome says could carry its value on are among `C`. -/
def Onward (C : List Expectation) : Outcome α → Prop
  | done _ _ also => ∀ x ∈ also, x ∈ C
  | stuck _ _ => True

theorem Onward.map {C : List Expectation} {o : Outcome α} (h : o.Onward C) (f : α → β) :
    (o.map f).Onward C := by
  cases o with
  | done a rest also => exact h
  | stuck rest expected => trivial

theorem Onward.mono {C D : List Expectation} {o : Outcome α} (h : o.Onward C) (hCD : C ⊆ D) :
    o.Onward D := by
  cases o with
  | done a rest also => exact fun x hx => hCD (h x hx)
  | stuck rest expected => trivial

theorem after_of_length_lt {o : Outcome α} {ts : List Token} (h : o.rest.length < ts.length)
    (also : List Expectation) : o.after ts also = o := by
  have hne : o.rest.length ≠ ts.length := Nat.ne_of_lt h
  cases o <;> simp_all [after, rest]

@[simp] theorem rest_map (f : α → β) (o : Outcome α) : (o.map f).rest = o.rest := by
  cases o <;> rfl

@[simp] theorem rest_after (o : Outcome α) (ts : List Token) (also : List Expectation) :
    (o.after ts also).rest = o.rest := by
  cases o <;> rfl

theorem after_map (f : α → β) (o : Outcome α) (ts : List Token) (also : List Expectation) :
    (o.map f).after ts also = (o.after ts also).map f := by
  cases o <;> rfl

theorem orNothing_of_length_lt {o : Outcome α} {ts : List Token}
    (h : o.rest.length < ts.length) (a : α) : o.orNothing ts a = o := by
  have hne : o.rest.length ≠ ts.length := Nat.ne_of_lt h
  cases o <;> simp_all [orNothing, rest]

namespace Exact

variable {P : Phrase α} {ts : List Token} {o : Outcome α}

theorem length_rest_le (h : Exact P ts o) : o.rest.length ≤ ts.length := by
  induction h with
  | read _ _ ih => exact Nat.le_succ_of_le ih
  | done => exact Nat.le_refl _
  | stuck => exact Nat.le_refl _

/-- A reader that is done without reading anything has said the empty phrase. -/
theorem length_rest_lt {a : α} {rest : List Token} {also : List Expectation}
    (h : Exact P ts (.done a rest also)) (hP : ∀ b, ¬ P [] b) : rest.length < ts.length := by
  cases h with
  | read _ h => exact Nat.lt_succ_of_le h.length_rest_le
  | done hvalue => exact absurd ((hvalue a).mpr rfl) (hP a)

/-- On tokens that are complete, an exact reader is done at the end of them. -/
theorem eq_done {a : α} (h : Exact P ts o) (ha : P.afterAll ts [] a) :
    ∃ also, o = .done a [] also ∧ ∀ x, x ∈ also ↔ (P.afterAll ts).Next x := by
  induction h with
  | read _ _ ih => exact ih ha
  | @done P ts b also hvalue hnext hblocked =>
    cases ts with
    | nil =>
      obtain rfl := (hvalue a).mp ha
      exact ⟨also, rfl, hnext⟩
    | cons t ts => exact absurd (Phrase.possible_after_of_afterAll ha) (hblocked t rfl)
  | @stuck P ts expected hpossible hvalue hnext hblocked =>
    cases ts with
    | nil => exact absurd ha (hvalue a)
    | cons t ts => exact absurd (Phrase.possible_after_of_afterAll ha) (hblocked t rfl)

/-- Where an exact reader is done : after some tokens whose only value it gives, before a
token that cannot carry them on. -/
theorem of_done {a : α} {rest : List Token} {also : List Expectation}
    (h : Exact P ts (.done a rest also)) :
    ∃ q, ts = q ++ rest ∧ (∀ b, P.afterAll q [] b ↔ b = a) ∧
      (∀ x, x ∈ also ↔ (P.afterAll q).Next x) ∧
      ∀ t ∈ rest.head?, ¬ ((P.afterAll q).after t).Possible := by
  generalize ho : Outcome.done a rest also = o at h
  induction h with
  | read _ _ ih =>
    obtain ⟨q, rfl, hq⟩ := ih ho
    exact ⟨_ :: q, rfl, hq⟩
  | done hvalue hnext hblocked =>
    obtain ⟨rfl, rfl, rfl⟩ := Outcome.done.inj ho
    exact ⟨[], rfl, hvalue, hnext, hblocked⟩
  | stuck => simp at ho

/-- Where an exact reader is stuck : after some tokens that are the start of a phrase but no
phrase, before a token that cannot carry them on. -/
theorem of_stuck {rest : List Token} {expected : List Expectation}
    (h : Exact P ts (.stuck rest expected)) :
    ∃ q, ts = q ++ rest ∧ (P.afterAll q).Possible ∧ (∀ b, ¬ P.afterAll q [] b) ∧
      (∀ x, x ∈ expected ↔ (P.afterAll q).Next x) ∧
      ∀ t ∈ rest.head?, ¬ ((P.afterAll q).after t).Possible := by
  generalize ho : Outcome.stuck rest expected = o at h
  induction h with
  | read _ _ ih =>
    obtain ⟨q, rfl, hq⟩ := ih ho
    exact ⟨_ :: q, rfl, hq⟩
  | done => simp at ho
  | stuck hpossible hvalue hnext hblocked =>
    obtain ⟨rfl, rfl⟩ := Outcome.stuck.inj ho
    exact ⟨[], rfl, hpossible, hvalue, hnext, hblocked⟩

theorem empty (a : α) (ts : List Token) : Exact (Phrase.empty a) ts (.done a ts []) := by
  refine Exact.done (fun b => ?_) (fun x => ?_) fun t _ => Phrase.not_possible_after_empty a t
  · simp [Phrase.empty]
  · simpa using Phrase.not_next_empty a x

theorem map (f : α → β) (h : Exact P ts o) : Exact (P.map f) ts (o.map f) := by
  induction h with
  | read hpossible _ ih =>
    rw [← Phrase.after_map] at ih
    refine Exact.read ?_ ih
    rw [Phrase.after_map]
    exact Phrase.possible_map.mpr hpossible
  | done hvalue hnext hblocked =>
    refine Exact.done (fun b => ?_) (fun x => (hnext x).trans Phrase.next_map_iff.symm) ?_
    · refine ⟨?_, ?_⟩
      · rintro ⟨a, ha, rfl⟩
        rw [(hvalue a).mp ha]
      · rintro rfl
        exact ⟨_, (hvalue _).mpr rfl, rfl⟩
    · intro t ht
      rw [Phrase.after_map, Phrase.possible_map]
      exact hblocked t ht
  | stuck hpossible hvalue hnext hblocked =>
    refine Exact.stuck (Phrase.possible_map.mpr hpossible) ?_
      (fun x => (hnext x).trans Phrase.next_map_iff.symm) ?_
    · rintro b ⟨a, ha, -⟩
      exact hvalue a ha
    · intro t ht
      rw [Phrase.after_map, Phrase.possible_map]
      exact hblocked t ht

/-- Where the first part of a sequence is done, the sequence is its second part, and the
leaves that could carry on the first part can come there as well. -/
theorem after {Q : α → Phrase β} {a : α} {also : List Expectation} {o : Outcome β}
    (hvalue : ∀ b, P [] b ↔ b = a) (hnext : ∀ x, x ∈ also ↔ P.Next x)
    (hblocked : ∀ t ∈ ts.head?, ¬ (P.after t).Possible) (hQ : ∀ a, (Q a).Possible)
    (h : Exact (Q a) ts o) : Exact (P.seq Q) ts (o.after ts also) := by
  have hnil : ∀ b, P.seq Q [] b ↔ Q a [] b := by
    intro b
    rw [Phrase.seq_nil_iff]
    refine ⟨?_, ?_⟩
    · rintro ⟨c, hc, hb⟩
      rwa [← (hvalue c).mp hc]
    · exact fun hb => ⟨a, (hvalue a).mpr rfl, hb⟩
  have hseq : ∀ x, (P.seq Q).Next x ↔ x ∈ also ∨ (Q a).Next x := by
    intro x
    rw [Phrase.next_seq_iff hQ, hnext]
    refine ⟨?_, ?_⟩
    · rintro (hx | ⟨c, hc, hx⟩)
      · exact Or.inl hx
      · exact Or.inr ((hvalue c).mp hc ▸ hx)
    · exact Or.imp_right fun hx => ⟨a, (hvalue a).mpr rfl, hx⟩
  cases h with
  | read hpossible h =>
    rw [after_of_length_lt (Nat.lt_succ_of_le h.length_rest_le)]
    rw [← Phrase.after_seq_right hvalue (hblocked _ rfl)] at hpossible h
    exact Exact.read hpossible h
  | done hv hn hb =>
    rw [Outcome.after, if_pos rfl]
    refine Exact.done (fun b => (hnil b).trans (hv b)) (fun x => ?_) fun t ht => ?_
    · rw [List.mem_append, hn, hseq]
    · rw [Phrase.after_seq_right hvalue (hblocked t ht)]
      exact hb t ht
  | stuck hp hv hn hb =>
    rw [Outcome.after, if_pos rfl]
    refine Exact.stuck (Phrase.possible_seq ⟨[], a, (hvalue a).mpr rfl⟩ hQ)
      (fun b hb => hv b ((hnil b).mp hb)) (fun x => ?_) fun t ht => ?_
    · rw [List.mem_append, hn, hseq]
    · rw [Phrase.after_seq_right hvalue (hblocked t ht)]
      exact hb t ht

/-- Reading on after an exact reader is exact if a token that carries on a complete first part
never starts the second part. -/
theorem andThen {Q : α → Phrase β} {f : α → Reader β} (h : Exact P ts o)
    (hQ : ∀ a, (Q a).Possible)
    (hf : ∀ a rest also, o = .done a rest also → Exact (Q a) rest (f a rest))
    (hapart : ∀ q t a, (q ++ [t]).length ≤ ts.length → P.afterAll q [] a →
      ((P.afterAll q).after t).Possible → ∀ b, ¬ ((Q b).after t).Possible) :
    Exact (P.seq Q) ts (o.andThen f) := by
  induction h with
  | @read P t ts o hpossible h ih =>
    have hleft : (P.seq Q).after t = (P.after t).seq Q :=
      Phrase.after_seq_left fun a ha => hapart [] t a (by simp) ha hpossible a
    refine Exact.read ?_ ?_
    · rw [hleft]
      exact Phrase.possible_seq hpossible hQ
    · rw [hleft]
      refine ih hf fun q u a hq ha hu => hapart (t :: q) u a ?_ ha hu
      simpa using hq
  | done hvalue hnext hblocked => exact after hvalue hnext hblocked hQ (hf _ _ _ rfl)
  | stuck hpossible hvalue hnext hblocked =>
    refine Exact.stuck (Phrase.possible_seq hpossible hQ) ?_ (fun x => ?_) ?_
    · intro b hb
      obtain ⟨a, ha, -⟩ := Phrase.seq_nil_iff.mp hb
      exact hvalue a ha
    · rw [hnext, Phrase.next_seq_iff hQ]
      refine ⟨?_, ?_⟩
      · exact Or.inl
      · rintro (hx | ⟨a, ha, -⟩)
        · exact hx
        · exact absurd ha (hvalue a)
    · intro t ht
      rw [Phrase.after_seq_left fun a ha => absurd ha (hvalue a)]
      rintro ⟨s, b, u, v, a, -, hu, -⟩
      exact hblocked t ht ⟨u, a, hu⟩

/-- Two exact readers, neither of the empty phrase, tried in order are exact for the choice if
no token can start both. -/
theorem or {Q : Phrase α} {p q : Reader α} (hp : Exact P ts (p ts)) (hq : Exact Q ts (q ts))
    (hP : ∀ a, ¬ P [] a) (hQ : ∀ a, ¬ Q [] a)
    (hapart : ∀ t, (P.after t).Possible → ¬ (Q.after t).Possible) :
    Exact (P.alt Q) ts (p.or q ts) := by
  have hnil : ∀ a, ¬ P.alt Q [] a := fun a h => h.elim (hP a) (hQ a)
  unfold Reader.or
  generalize p ts = o at hp ⊢
  cases hp with
  | @read _ t ts _ hpossible h =>
    have hleft : (P.alt Q).after t = P.after t := Phrase.after_alt_left (hapart t hpossible)
    have hread : Exact (P.alt Q) (t :: ts) o := by
      refine Exact.read ?_ ?_
      · rwa [hleft]
      · rwa [hleft]
    cases o with
    | done a rest also => exact hread
    | stuck rest expected =>
      have hlt : rest.length < (t :: ts).length := Nat.lt_succ_of_le h.length_rest_le
      simp only [if_neg (Nat.ne_of_lt hlt)]
      exact hread
  | done hvalue => exact absurd ((hvalue _).mpr rfl) (hP _)
  | @stuck _ _ expected hpossible hvalue hnext hblocked =>
    have hright : ∀ t ∈ ts.head?, (P.alt Q).after t = Q.after t := fun t ht => by
      rw [Phrase.alt_comm]
      exact Phrase.after_alt_left (hblocked t ht)
    simp only [if_pos]
    generalize q ts = o at hq ⊢
    cases hq with
    | @read _ t ts _ hpossible h =>
      rw [after_of_length_lt (Nat.lt_succ_of_le h.length_rest_le)]
      rw [← hright t rfl] at hpossible h
      exact Exact.read hpossible h
    | done hvalue => exact absurd ((hvalue _).mpr rfl) (hQ _)
    | stuck hp hv hn hb =>
      rw [Outcome.after, if_pos rfl]
      refine Exact.stuck ?_ hnil (fun x => ?_) fun t ht => ?_
      · obtain ⟨s, a, h⟩ := hp
        exact ⟨s, a, Or.inr h⟩
      · rw [List.mem_append, hnext, hn, Phrase.next_alt_iff]
      · rw [hright t ht]
        exact hb t ht

/-- An exact reader of a phrase that is not empty stays exact if nothing may be read too. -/
theorem orNothing {d : α} (h : Exact P ts o) (hP : ∀ a, ¬ P [] a) :
    Exact (P.alt (Phrase.empty d)) ts (o.orNothing ts d) := by
  have hafter : ∀ t, (P.alt (Phrase.empty d)).after t = P.after t := fun t =>
    Phrase.after_alt_left fun ⟨s, a, i, _, hnil, _⟩ => List.cons_ne_nil i s hnil
  cases h with
  | @read _ t ts _ hpossible h =>
    rw [orNothing_of_length_lt (Nat.lt_succ_of_le h.length_rest_le)]
    refine Exact.read ?_ ?_
    · rwa [hafter]
    · rwa [hafter]
  | done hvalue => exact absurd ((hvalue _).mpr rfl) (hP _)
  | stuck hpossible hvalue hnext hblocked =>
    rw [Outcome.orNothing, if_pos rfl]
    refine Exact.done (fun b => ?_) (fun x => ?_) fun t ht => ?_
    · refine ⟨?_, ?_⟩
      · rintro (hb | ⟨-, rfl⟩)
        · exact absurd hb (hP b)
        · rfl
      · rintro rfl
        exact Or.inr ⟨rfl, rfl⟩
    · rw [hnext, Phrase.next_alt_iff]
      refine ⟨?_, ?_⟩
      · exact Or.inl
      · rintro (hx | ⟨i, s, a, ⟨hnil, -⟩, -⟩)
        · exact hx
        · exact absurd hnil (List.cons_ne_nil i s)
    · rw [hafter]
      exact hblocked t ht

theorem onward_orNothing {d : α} {F C : List Expectation} (h : Exact P ts o)
    (hF : ∀ x, P.Next x → x ∈ F) (hC : o.Onward C) : (o.orNothing ts d).Onward (F ++ C) := by
  cases o with
  | done a rest also => exact fun x hx => List.mem_append_right F (hC x hx)
  | stuck rest expected =>
    rw [Outcome.orNothing]
    split
    · next hlength =>
      cases h with
      | read _ h => exact absurd hlength (Nat.ne_of_lt (Nat.lt_succ_of_le h.length_rest_le))
      | stuck _ _ hnext =>
        exact fun x hx => List.mem_append_left C (hF x ((hnext x).mp hx))
    · trivial

end Exact

end Outcome

/-! ## Shapes -/

/-- No token is accepted by a leaf of the one list and a leaf of the other. -/
def Separate (C F : List Expectation) : Prop :=
  ∀ x ∈ C, ∀ y ∈ F, ∀ k ∈ x.kinds, k ∉ y.kinds

instance (C F : List Expectation) : Decidable (Separate C F) :=
  inferInstanceAs (Decidable (∀ x ∈ C, ∀ y ∈ F, ∀ k ∈ x.kinds, k ∉ y.kinds))

/-- What has to be known of a phrase to put it in a sequence or a choice. -/
structure Shape where
  /-- Whether the phrase can be empty. -/
  nullable : Bool
  /-- Leaves that it can start with. -/
  first : List Expectation
  /-- Leaves that can carry it on where it could also end. -/
  onward : List Expectation

namespace Shape

/-- The shape of a single leaf. -/
def leaf (x : Expectation) : Shape :=
  ⟨false, [x], []⟩

/-- The shape of the empty phrase. -/
def empty : Shape :=
  ⟨true, [], []⟩

/-- The shape of a sequence. -/
def seq (a b : Shape) : Shape where
  nullable := a.nullable && b.nullable
  first := if a.nullable then a.first ++ b.first else a.first
  onward := if b.nullable then a.onward ++ b.onward else b.onward

/-- The shape of a choice. -/
def alt (a b : Shape) : Shape where
  nullable := a.nullable || b.nullable
  first := a.first ++ b.first
  onward := a.onward ++ b.onward

/-- The shape of a phrase that may be left out or repeated. -/
def star (a : Shape) : Shape where
  nullable := true
  first := a.first
  onward := a.first ++ a.onward

end Shape

/-- On fewer than `n` tokens, `p` reads exactly the phrase `P`, which is of the given shape. -/
structure Reader.Matches (p : Reader α) (P : Phrase α) (sh : Shape) (n : Nat) : Prop where
  exact : ∀ ts, ts.length < n → (p ts).Exact P ts
  onward : ∀ ts, ts.length < n → (p ts).Onward sh.onward
  possible : P.Possible
  nullable : ∀ a, P [] a → sh.nullable = true
  first : ∀ x, P.Next x → x ∈ sh.first

namespace Reader.Matches

variable {p q : Reader α} {P Q : Phrase α} {sh sh' : Shape} {n : Nat}

theorem not_nil (h : p.Matches P sh n) (hsh : sh.nullable = false) (a : α) : ¬ P [] a := by
  intro ha
  rw [h.nullable a ha] at hsh
  exact Bool.noConfusion hsh

/-- A reader matches what is the same phrase in other words. -/
theorem congr (h : p.Matches P sh n) (hPQ : ∀ s a, P s a ↔ Q s a) : p.Matches Q sh n := by
  have : P = Q := by
    funext s a
    exact propext (hPQ s a)
  rwa [← this]

/-- A shape may name more than it has to. -/
theorem reshape (h : p.Matches P sh n) (hnull : sh.nullable = true → sh'.nullable = true)
    (hfirst : sh.first ⊆ sh'.first) (honward : sh.onward ⊆ sh'.onward) : p.Matches P sh' n where
  exact := h.exact
  onward ts hts := (h.onward ts hts).mono honward
  possible := h.possible
  nullable a ha := hnull (h.nullable a ha)
  first x hx := hfirst (h.first x hx)

/-- A leaf that carries a complete phrase on is one of those the shape names. -/
theorem mem_onward (h : p.Matches P sh n) {ts : List Token} (hn : ts.length < n) {a : α}
    (ha : P.afterAll ts [] a) {x : Expectation} (hx : (P.afterAll ts).Next x) :
    x ∈ sh.onward := by
  obtain ⟨also, ho, halso⟩ := (h.exact ts hn).eq_done ha
  have honward := h.onward ts hn
  rw [ho] at honward
  exact honward x ((halso x).mpr hx)

theorem leaf {l : Leaf} {accept : Token → Option α} {value : l.Match → α} (m₀ : l.Match)
    (haccept : ∀ m, accept m.token = some (value m))
    (hreject : ∀ t, ¬ l.Accepts t → accept t = none) :
    (Reader.leaf l.expectation accept).Matches (Phrase.leaf l value)
      (Shape.leaf l.expectation) n := by
  have hpossible : (Phrase.leaf l value).Possible := ⟨_, _, m₀, rfl, rfl⟩
  have hnil : ∀ a, ¬ Phrase.leaf l value [] a := by
    rintro a ⟨m, hm, -⟩
    simp at hm
  have hnext : ∀ x, x ∈ [l.expectation] ↔ (Phrase.leaf l value).Next x := by
    intro x
    rw [List.mem_singleton]
    refine ⟨?_, ?_⟩
    · rintro rfl
      exact ⟨m₀, [], _, ⟨m₀, rfl, rfl⟩, rfl⟩
    · rintro ⟨i, s, a, ⟨m, hm, -⟩, rfl⟩
      rw [(List.cons.inj hm).1]
  refine ⟨fun ts _ => ?_, fun ts _ => ?_, hpossible, fun a ha => absurd ha (hnil a), fun x hx => ?_⟩
  · cases ts with
    | nil => exact Outcome.Exact.stuck hpossible hnil hnext (by simp)
    | cons t ts =>
      rw [Reader.leaf]
      by_cases ht : l.Accepts t
      · have hafter : (Phrase.leaf l value).after t = Phrase.empty (value ⟨t, ht⟩) :=
          Phrase.after_leaf ⟨t, ht⟩
        rw [show accept t = _ from haccept ⟨t, ht⟩]
        refine Outcome.Exact.read ?_ ?_
        · rw [hafter]
          exact ⟨[], _, rfl, rfl⟩
        · rw [hafter]
          exact Outcome.Exact.empty _ ts
      · rw [hreject t ht]
        refine Outcome.Exact.stuck hpossible hnil hnext fun u hu => ?_
        obtain rfl : t = u := by simpa using hu
        exact Phrase.not_possible_after_leaf ht
  · cases ts with
    | nil => trivial
    | cons t ts =>
      rw [Reader.leaf]
      cases accept t <;> simp [Outcome.Onward]
  · exact (hnext x).mpr hx

theorem pure (a : α) : (Pure.pure a : Reader α).Matches (Phrase.empty a) Shape.empty n where
  exact ts _ := Outcome.Exact.empty a ts
  onward _ _ := by simp [Pure.pure, Reader.pure, Outcome.Onward]
  possible := ⟨[], a, rfl, rfl⟩
  nullable _ _ := rfl
  first x hx := absurd hx (Phrase.not_next_empty a x)

theorem map_apply (f : α → β) (p : Reader α) (ts : List Token) :
    (f <$> p) ts = (p ts).map f := by
  show Reader.bind p (fun a => Reader.pure (f a)) ts = _
  unfold Reader.bind
  cases p ts <;> simp [Reader.pure, Outcome.after, Outcome.map]

theorem map (f : α → β) (h : p.Matches P sh n) : (f <$> p).Matches (P.map f) sh n := by
  refine ⟨fun ts hts => ?_, fun ts hts => ?_, Phrase.possible_map.mpr h.possible, ?_, ?_⟩
  · rw [map_apply]
    exact (h.exact ts hts).map f
  · rw [map_apply]
    exact (h.onward ts hts).map f
  · rintro b ⟨a, ha, -⟩
    exact h.nullable a ha
  · exact fun x hx => h.first x (Phrase.next_map_iff.mp hx)

/-- The rule for reading on, where what is left after the first reader is shorter than `m`. -/
theorem bind_of_length {f : α → Reader β} {R : α → Phrase β} {m : Nat} (hp : p.Matches P sh n)
    (hf : ∀ a, (f a).Matches (R a) sh' m) (hsep : Separate sh.onward sh'.first)
    (hlength : ∀ ts a rest also, ts.length < n → p ts = .done a rest also → rest.length < m) :
    (p >>= f).Matches (P.seq R) (sh.seq sh') n := by
  have heq : ∀ ts, (p >>= f) ts = (p ts).andThen f := fun ts => rfl
  have hR : ∀ a, (R a).Possible := fun a => (hf a).possible
  -- A token that carries on a complete first part is named in `sh.onward`, and one that starts
  -- the second part in `sh'.first`.
  have hapart : ∀ ts : List Token, ts.length < n → ∀ q t a, (q ++ [t]).length ≤ ts.length →
      P.afterAll q [] a → ((P.afterAll q).after t).Possible → ∀ b, ¬ ((R b).after t).Possible := by
    intro ts hts q t a hq ha ht b hb
    simp only [List.length_append, List.length_singleton] at hq
    obtain ⟨x, hx, hkx⟩ := Phrase.exists_next_of_possible_after ht
    obtain ⟨y, hy, hky⟩ := Phrase.exists_next_of_possible_after hb
    exact hsep x (hp.mem_onward (by omega) ha hx) y ((hf b).first y hy) _ hkx hky
  refine ⟨fun ts hts => ?_, fun ts hts => ?_, Phrase.possible_seq hp.possible hR, ?_, ?_⟩
  · rw [heq]
    exact (hp.exact ts hts).andThen hR
      (fun a rest also ho => (hf a).exact rest (hlength ts a rest also hts ho)) (hapart ts hts)
  · rw [heq]
    have honward := hp.onward ts hts
    cases ho : p ts with
    | stuck rest expected => trivial
    | done a rest also =>
      have hrest := hlength ts a rest also hts ho
      have hexact := (hf a).exact rest hrest
      have honward' := (hf a).onward rest hrest
      rw [ho] at honward
      rw [Outcome.andThen]
      cases ho' : f a rest with
      | stuck rest' expected => trivial
      | done b rest' also' =>
        rw [ho'] at hexact honward'
        rw [Outcome.after, Shape.seq]
        intro x hx
        cases hnull : sh'.nullable with
        | false =>
          have hlt := hexact.length_rest_lt ((hf a).not_nil hnull)
          rw [if_neg (Nat.ne_of_lt hlt)] at hx
          simpa [hnull] using honward' x hx
        | true =>
          split at hx
          · rcases List.mem_append.mp hx with hx | hx
            · simp [honward x hx]
            · simp [honward' x hx]
          · simp [honward' x hx]
  · intro b hb
    obtain ⟨a, ha, hb⟩ := Phrase.seq_nil_iff.mp hb
    simp [Shape.seq, hp.nullable a ha, (hf a).nullable b hb]
  · intro x hx
    rcases (Phrase.next_seq_iff hR).mp hx with hx | ⟨a, ha, hx⟩
    · rw [Shape.seq]
      split
      · exact List.mem_append_left _ (hp.first x hx)
      · exact hp.first x hx
    · rw [Shape.seq, hp.nullable a ha]
      exact List.mem_append_right _ ((hf a).first x hx)

theorem bind {f : α → Reader β} {R : α → Phrase β} (hp : p.Matches P sh n)
    (hf : ∀ a, (f a).Matches (R a) sh' n) (hsep : Separate sh.onward sh'.first) :
    (p >>= f).Matches (P.seq R) (sh.seq sh') n := by
  refine hp.bind_of_length hf hsep fun ts a rest also hts ho => ?_
  have hle := (hp.exact ts hts).length_rest_le
  rw [ho] at hle
  exact Nat.lt_of_le_of_lt hle hts

/-- Nothing carries a leaf on. -/
theorem leafBind {x : Expectation} {f : α → Reader β} {R : α → Phrase β}
    (hp : p.Matches P (.leaf x) n) (hf : ∀ a, (f a).Matches (R a) sh' n) :
    (p >>= f).Matches (P.seq R) ((Shape.leaf x).seq sh') n :=
  hp.bind hf fun _ hx => absurd hx List.not_mem_nil

/-- After a reader that takes a token, fewer are left. -/
theorem bind_succ {f : α → Reader β} {R : α → Phrase β} (hp : p.Matches P sh (n + 1))
    (hsh : sh.nullable = false) (hf : ∀ a, (f a).Matches (R a) sh' n)
    (hsep : Separate sh.onward sh'.first) :
    (p >>= f).Matches (P.seq R) (sh.seq sh') (n + 1) := by
  refine hp.bind_of_length hf hsep fun ts a rest also hts ho => ?_
  have hlt := (ho ▸ hp.exact ts hts).length_rest_lt (hp.not_nil hsh)
  omega

theorem or (hp : p.Matches P sh n) (hq : q.Matches Q sh' n) (hsh : sh.nullable = false)
    (hsh' : sh'.nullable = false) (hsep : Separate sh.first sh'.first) :
    (p.or q).Matches (P.alt Q) (sh.alt sh') n := by
  have hapart : ∀ t, (P.after t).Possible → ¬ (Q.after t).Possible := by
    intro t hP hQ
    obtain ⟨x, hx, hkx⟩ := Phrase.exists_next_of_possible_after hP
    obtain ⟨y, hy, hky⟩ := Phrase.exists_next_of_possible_after hQ
    exact hsep x (hp.first x hx) y (hq.first y hy) _ hkx hky
  refine ⟨fun ts hts => ?_, fun ts hts => ?_, ?_, ?_, ?_⟩
  · exact (hp.exact ts hts).or (hq.exact ts hts) (hp.not_nil hsh) (hq.not_nil hsh') hapart
  · have hP := hp.onward ts hts
    have hQ := hq.onward ts hts
    have hexact := hq.exact ts hts
    unfold Reader.or
    cases ho : p ts with
    | done a rest also =>
      rw [ho] at hP
      exact fun x hx => List.mem_append_left _ (hP x hx)
    | stuck rest expected =>
      dsimp only
      split
      · cases ho' : q ts with
        | stuck rest' expected' => trivial
        | done b rest' also' =>
          rw [ho'] at hQ hexact
          have hlt := hexact.length_rest_lt (hq.not_nil hsh')
          rw [Outcome.after, if_neg (Nat.ne_of_lt hlt)]
          exact fun x hx => List.mem_append_right _ (hQ x hx)
      · trivial
  · obtain ⟨s, a, h⟩ := hp.possible
    exact ⟨s, a, Or.inl h⟩
  · rintro a (ha | ha)
    · exact absurd ha (hp.not_nil hsh a)
    · exact absurd ha (hq.not_nil hsh' a)
  · intro x hx
    rcases Phrase.next_alt_iff.mp hx with hx | hx
    · exact List.mem_append_left _ (hp.first x hx)
    · exact List.mem_append_right _ (hq.first x hx)

theorem optional (hp : p.Matches P sh n) (hsh : sh.nullable = false) :
    p.optional.Matches ((P.map some).alt (Phrase.empty none)) sh.star n := by
  have heq : ∀ ts, p.optional ts = ((p ts).map some).orNothing ts none := by
    intro ts
    unfold Reader.optional
    cases p ts <;> rfl
  have hnil : ∀ a, ¬ P.map some [] a := fun _ ⟨a, ha, _⟩ => hp.not_nil hsh a ha
  refine ⟨fun ts hts => ?_, fun ts hts => ?_, ⟨[], none, Or.inr ⟨rfl, rfl⟩⟩, fun _ _ => rfl,
    fun x hx => ?_⟩
  · rw [heq]
    exact ((hp.exact ts hts).map some).orNothing hnil
  · rw [heq]
    exact ((hp.exact ts hts).map some).onward_orNothing
      (fun x hx => hp.first x (Phrase.next_map_iff.mp hx)) ((hp.onward ts hts).map some)
  · rcases Phrase.next_alt_iff.mp hx with hx | hx
    · exact hp.first x (Phrase.next_map_iff.mp hx)
    · exact absurd hx (Phrase.not_next_empty none x)

theorem mono {m : Nat} (h : p.Matches P sh n) (hm : m ≤ n) : p.Matches P sh m where
  exact ts hts := h.exact ts (Nat.lt_of_lt_of_le hts hm)
  onward ts hts := h.onward ts (Nat.lt_of_lt_of_le hts hm)
  possible := h.possible
  nullable := h.nullable
  first := h.first

/-- One step of a repetition : read once and repeat, or read nothing. -/
theorem many_eq (hp : p.Matches P sh n) (hsh : sh.nullable = false)
    (hmany : ∀ ts, ts.length + 1 < n → (p.many ts).rest.length ≤ ts.length) {ts : List Token}
    (hts : ts.length < n) :
    p.many ts = ((p >>= fun a => (a :: ·) <$> p.many) ts).orNothing ts [] := by
  have hexact := hp.exact ts hts
  rw [Reader.many]
  show _ = ((p ts).andThen _).orNothing ts []
  cases ho : p ts with
  | stuck rest expected => rfl
  | done a rest also =>
    have hlt : rest.length < ts.length := (ho ▸ hexact).length_rest_lt (hp.not_nil hsh)
    have hle := hmany rest (by omega)
    have hmap : ((a :: ·) <$> p.many : Reader (List α)) rest = (p.many rest).map (a :: ·) :=
      map_apply (a :: ·) p.many rest
    dsimp only
    rw [dif_pos hlt, Outcome.andThen, hmap, Outcome.after_map, Outcome.orNothing_of_length_lt]
    · cases (p.many rest).after rest also <;> rfl
    · rw [Outcome.rest_map, Outcome.rest_after]
      omega

/-- The rule for repetition : a phrase that is not empty and that its own first leaves cannot
carry on. -/
theorem many (hp : p.Matches P sh n) (hsh : sh.nullable = false)
    (hsep : Separate sh.onward sh.first) : Reader.Matches p.many P.Star sh.star n := by
  have hR : ∀ a, (P.Star.map (a :: ·)).Possible := fun a =>
    Phrase.possible_map.mpr ⟨[], [], Phrase.Star.nil⟩
  have hfirst : ∀ x, P.Star.Next x → x ∈ sh.first := by
    intro x hx
    rw [Phrase.star_eq] at hx
    rcases Phrase.next_alt_iff.mp hx with hx | hx
    · rcases (Phrase.next_seq_iff hR).mp hx with hx | ⟨a, ha, -⟩
      · exact hp.first x hx
      · exact absurd ha (hp.not_nil hsh a)
    · exact absurd hx (Phrase.not_next_empty [] x)
  induction n with
  | zero =>
    exact ⟨fun ts hts => absurd hts (Nat.not_lt_zero _),
      fun ts hts => absurd hts (Nat.not_lt_zero _),
      ⟨[], [], Phrase.Star.nil⟩, fun _ _ => rfl, hfirst⟩
  | succ n ih =>
    have hmany := ih (hp.mono (Nat.le_succ n))
    have hseq := hp.bind_succ hsh (fun a => hmany.map (a :: ·)) hsep
    have hnull : (sh.seq sh.star).nullable = false := by rw [Shape.seq, hsh, Bool.false_and]
    have heq : ∀ ts, ts.length < n + 1 →
        p.many ts = ((p >>= fun a => (a :: ·) <$> p.many) ts).orNothing ts [] := fun ts hts =>
      hp.many_eq hsh (fun us hus => (hmany.exact us (by omega)).length_rest_le) hts
    refine ⟨fun ts hts => ?_, fun ts hts => ?_, ⟨[], [], Phrase.Star.nil⟩, fun _ _ => rfl, hfirst⟩
    · rw [heq ts hts, Phrase.star_eq]
      exact (hseq.exact ts hts).orNothing (hseq.not_nil hnull)
    · rw [heq ts hts]
      refine ((hseq.exact ts hts).onward_orNothing hseq.first (hseq.onward ts hts)).mono ?_
      simp [Shape.seq, Shape.star, hsh]

/-- The rule for items joined by operators. -/
theorem chain {op : Reader (α → α → α)} {O : Phrase (α → α → α)} (hp : p.Matches P sh n)
    (hop : op.Matches O sh' n) (hsh : sh.nullable = false) (hsh' : sh'.nullable = false)
    (hitem : Separate sh.onward sh'.first) (hoperator : Separate sh'.onward sh.first) :
    (p.chain op).Matches (P.Joined O) (sh.seq (sh'.seq sh).star) n := by
  have hpair : (do let f ← op; let a ← p; return (f, a) : Reader ((α → α → α) × α)).Matches
      (O.seq fun f => P.map fun b => (f, b)) (sh'.seq sh) n :=
    hop.bind (fun f => hp.map fun b => (f, b)) hoperator
  have hnull : (sh'.seq sh).nullable = false := by rw [Shape.seq, hsh', Bool.false_and]
  have hmore := hpair.many hnull (by simpa [Shape.seq, hsh, hsh'] using hitem)
  refine congr ?_ fun s a => Phrase.joined_iff.symm
  exact hp.bind (fun first => hmore.map _) (by simpa [Shape.seq, Shape.star, hsh'] using hitem)

end Reader.Matches

end AccessPolicy
