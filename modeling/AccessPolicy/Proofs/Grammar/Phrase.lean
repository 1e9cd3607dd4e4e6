import AccessPolicy.Grammar.Expectation
import AccessPolicy.Token.Basic
import AccessPolicy.Token.Word

/-!
# Phrases

A grammar says which lists of leaves make up a phrase and what the phrase stands for. An
`Item` is a leaf together with a token it accepts, and a `Phrase` relates lists of items to
values. Keeping the leaf beside the token is what lets one relation answer both questions
about a text : which value it has, and which leaf could have come next.

`Phrase.after` is what is left to say once a token has been read. A token list can be carried
on if something is left after it (`Phrase.Possible`), it is complete if nothing need be added,
and `Phrase.Next` holds of the leaves that something left starts with.
-/

namespace AccessPolicy

/-! ## Leaves -/

/-- A leaf of the grammar : a kind of token, a number, an identifier with a fixed name, or
the name of an attribute. -/
inductive Leaf where
  | kind (k : Token.Kind)
  | number
  | named (name : String)
  | attributeName

namespace Leaf

/-- The tokens that can stand for a leaf. A number needs an integer value, a fixed name is
compared without regard to ASCII case, and an attribute may be named by a keyword. -/
def Accepts : Leaf → Token → Prop
  | kind k, t => t.kind = k
  | number, t => t.kind = .number ∧ ∃ n, t.value = .number n
  | named name, t =>
    t.kind = .identifier ∧
      ∃ s, t.value = .text s ∧ Token.smallLetters s = Token.smallLetters name
  | attributeName, t => t.kind = .identifier ∨ t.kind = .can ∨ t.kind = .path ∨ t.kind = .action

/-- How a leaf is called where it was expected. -/
def expectation : Leaf → Expectation
  | kind k => .kind k
  | number => .kind .number
  | named name => .named name
  | attributeName => .kind .identifier

/-- A token that stands for the leaf `l`. -/
structure Match (l : Leaf) where
  token : Token
  fits : l.Accepts token

end Leaf

/-- A leaf with the token that stands for it. -/
structure Item where
  leaf : Leaf
  read : leaf.Match

instance {l : Leaf} : CoeOut l.Match Item where
  coe m := ⟨l, m⟩

/-- The token of an item. -/
def Item.token (i : Item) : Token :=
  i.read.token

/-- The tokens of some items, in order. -/
abbrev Item.tokens (s : List Item) : List Token :=
  s.map Item.token

/-- The kinds of the tokens that a leaf of a given name accepts. -/
def Expectation.kinds : Expectation → List Token.Kind
  | kind .identifier => [.identifier, .can, .path, .action]
  | kind k => [k]
  | named _ => [.identifier]
  | endOfDeclaration => []

theorem Leaf.mem_kinds_of_accepts {l : Leaf} {t : Token} (h : l.Accepts t) :
    t.kind ∈ l.expectation.kinds := by
  cases l with
  | kind k =>
    have hk : t.kind = k := h
    cases k <;> simp [expectation, Expectation.kinds, hk]
  | number => simp [expectation, Expectation.kinds, h.1]
  | named name => simp [expectation, Expectation.kinds, h.1]
  | attributeName => simpa [expectation, Expectation.kinds, Accepts] using h

theorem Item.kind_mem_kinds (i : Item) : i.token.kind ∈ i.leaf.expectation.kinds :=
  Leaf.mem_kinds_of_accepts i.read.fits

/-- Lists of items with the value each stands for. -/
abbrev Phrase (α : Type) : Type :=
  List Item → α → Prop

namespace Phrase

variable {α β : Type}

/-! ## What is left -/

/-- There is a way to say the phrase. -/
def Possible (P : Phrase α) : Prop :=
  ∃ s a, P s a

/-- The leaves that the phrase can start with. -/
def Next (P : Phrase α) (x : Expectation) : Prop :=
  ∃ i s a, P (i :: s) a ∧ i.leaf.expectation = x

/-- What is left of the phrase after the token `t`. -/
def after (P : Phrase α) (t : Token) : Phrase α := fun s a =>
  ∃ i : Item, i.token = t ∧ P (i :: s) a

/-- What is left of the phrase after some tokens. -/
def afterAll (P : Phrase α) (ts : List Token) : Phrase α :=
  ts.foldl after P

@[simp] theorem afterAll_nil (P : Phrase α) : P.afterAll [] = P := rfl

@[simp] theorem afterAll_cons (P : Phrase α) (t : Token) (ts : List Token) :
    P.afterAll (t :: ts) = (P.after t).afterAll ts := rfl

/-- What is left after `q` is what completes some items that spell `q`. -/
theorem afterAll_iff {P : Phrase α} {q : List Token} {s : List Item} {a : α} :
    P.afterAll q s a ↔ ∃ u, Item.tokens u = q ∧ P (u ++ s) a := by
  induction q generalizing P with
  | nil => simp
  | cons t q ih =>
    rw [afterAll_cons, ih]
    refine ⟨?_, ?_⟩
    · rintro ⟨u, hu, i, hi, h⟩
      exact ⟨i :: u, by simp [hi, hu], h⟩
    · rintro ⟨u, hu, h⟩
      obtain ⟨i, v, rfl, hi, hv⟩ := List.map_eq_cons_iff.mp hu
      exact ⟨v, hv, i, hi, h⟩

theorem possible_after_of_afterAll {P : Phrase α} {t : Token} {q : List Token} {s : List Item}
    {a : α} (h : P.afterAll (t :: q) s a) : (P.after t).Possible := by
  rw [afterAll_cons] at h
  obtain ⟨u, -, hu⟩ := afterAll_iff.mp h
  exact ⟨u ++ s, a, hu⟩

/-- A token after which something is left is of a kind that the phrase can start with. -/
theorem exists_next_of_possible_after {P : Phrase α} {t : Token} (h : (P.after t).Possible) :
    ∃ x, P.Next x ∧ t.kind ∈ x.kinds := by
  obtain ⟨s, a, i, rfl, hi⟩ := h
  exact ⟨_, ⟨i, s, a, hi, rfl⟩, i.kind_mem_kinds⟩

/-! ## Ways to build phrases -/

/-- A single leaf, with a value for each token that stands for it. -/
def leaf (l : Leaf) (value : l.Match → α) : Phrase α := fun s a =>
  ∃ m : l.Match, s = [↑m] ∧ a = value m

/-- No leaf at all. -/
def empty (a : α) : Phrase α := fun s b =>
  s = [] ∧ b = a

/-- A phrase and then another, which may depend on the value of the first. -/
def seq (P : Phrase α) (Q : α → Phrase β) : Phrase β := fun s b =>
  ∃ u v a, s = u ++ v ∧ P u a ∧ Q a v b

/-- A phrase of one of two kinds. -/
def alt (P Q : Phrase α) : Phrase α := fun s a =>
  P s a ∨ Q s a

/-- A phrase with its value changed. -/
def map (f : α → β) (P : Phrase α) : Phrase β := fun s b =>
  ∃ a, P s a ∧ f a = b

/-- A phrase repeated any number of times. -/
inductive Star (P : Phrase α) : Phrase (List α)
  | nil : Star P [] []
  | cons {u v : List Item} {a : α} {as : List α} (h : P u a) (hs : Star P v as) :
    Star P (u ++ v) (a :: as)

/-- Phrases joined by operators, from the left. -/
inductive Joined (P : Phrase α) (O : Phrase (α → α → α)) : Phrase α
  | one {s : List Item} {a : α} (h : P s a) : Joined P O s a
  | more {s o u : List Item} {f : α → α → α} {a b : α} (hl : Joined P O s a) (ho : O o f)
    (hr : P u b) : Joined P O (s ++ (o ++ u)) (f a b)

theorem not_possible_after_empty (a : α) (t : Token) : ¬ ((empty a).after t).Possible := by
  rintro ⟨s, b, i, -, hnil, -⟩
  exact List.cons_ne_nil i s hnil

theorem not_next_empty (a : α) (x : Expectation) : ¬ (empty a).Next x := by
  rintro ⟨i, s, b, ⟨hnil, -⟩, -⟩
  exact List.cons_ne_nil i s hnil

/-- Nothing is left of a leaf after a token that it accepts. -/
theorem after_leaf {l : Leaf} {value : l.Match → α} (m : l.Match) :
    (leaf l value).after m.token = empty (value m) := by
  funext s b
  rw [eq_iff_iff]
  refine ⟨?_, ?_⟩
  · rintro ⟨i, hi, m', hm, rfl⟩
    obtain ⟨rfl, rfl⟩ := List.cons.inj hm
    obtain ⟨t, ht⟩ := m
    obtain rfl : m'.token = t := hi
    exact ⟨rfl, rfl⟩
  · rintro ⟨rfl, rfl⟩
    exact ⟨_, rfl, m, rfl, rfl⟩

theorem not_possible_after_leaf {l : Leaf} {value : l.Match → α} {t : Token}
    (h : ¬ l.Accepts t) : ¬ ((leaf l value).after t).Possible := by
  rintro ⟨s, b, i, rfl, m, hm, -⟩
  obtain ⟨rfl, rfl⟩ := List.cons.inj hm
  exact h m.fits

/-- A leaf and then a phrase. -/
theorem leaf_seq_iff {l : Leaf} {value : l.Match → α} {Q : α → Phrase β} {s : List Item} {b : β} :
    (leaf l value).seq Q s b ↔ ∃ (m : l.Match) (u : List Item), s = ↑m :: u ∧ Q (value m) u b := by
  refine ⟨?_, ?_⟩
  · rintro ⟨u, v, a, rfl, ⟨m, rfl, rfl⟩, hv⟩
    exact ⟨m, v, rfl, hv⟩
  · rintro ⟨m, u, rfl, hu⟩
    exact ⟨[↑m], u, value m, rfl, ⟨m, rfl, rfl⟩, hu⟩

theorem seq_nil_iff {P : Phrase α} {Q : α → Phrase β} {b : β} :
    P.seq Q [] b ↔ ∃ a, P [] a ∧ Q a [] b := by
  refine ⟨?_, ?_⟩
  · rintro ⟨u, v, a, huv, hu, hv⟩
    obtain ⟨rfl, rfl⟩ := List.append_eq_nil_iff.mp huv.symm
    exact ⟨a, hu, hv⟩
  · rintro ⟨a, hu, hv⟩
    exact ⟨[], [], a, rfl, hu, hv⟩

/-- A phrase in two parts starts with an item of the first part, unless that is empty. -/
theorem seq_cons_iff {P : Phrase α} {Q : α → Phrase β} {i : Item} {s : List Item} {b : β} :
    P.seq Q (i :: s) b ↔
      (∃ u v a, s = u ++ v ∧ P (i :: u) a ∧ Q a v b) ∨ ∃ a, P [] a ∧ Q a (i :: s) b := by
  refine ⟨?_, ?_⟩
  · rintro ⟨u, v, a, huv, hu, hv⟩
    rcases List.cons_eq_append_iff.mp huv with ⟨rfl, rfl⟩ | ⟨u', rfl, rfl⟩
    · exact Or.inr ⟨a, hu, hv⟩
    · exact Or.inl ⟨u', v, a, rfl, hu, hv⟩
  · rintro (⟨u, v, a, rfl, hu, hv⟩ | ⟨a, hu, hv⟩)
    · exact ⟨i :: u, v, a, rfl, hu, hv⟩
    · exact ⟨[], i :: s, a, rfl, hu, hv⟩

theorem next_seq_iff {P : Phrase α} {Q : α → Phrase β} (hQ : ∀ a, (Q a).Possible)
    {x : Expectation} : (P.seq Q).Next x ↔ P.Next x ∨ ∃ a, P [] a ∧ (Q a).Next x := by
  refine ⟨?_, ?_⟩
  · rintro ⟨i, s, b, h, hx⟩
    rcases seq_cons_iff.mp h with ⟨u, v, a, -, hu, -⟩ | ⟨a, ha, hb⟩
    · exact Or.inl ⟨i, u, a, hu, hx⟩
    · exact Or.inr ⟨a, ha, i, s, b, hb, hx⟩
  · rintro (⟨i, u, a, hu, hx⟩ | ⟨a, ha, i, s, b, hb, hx⟩)
    · obtain ⟨v, b, hv⟩ := hQ a
      exact ⟨i, u ++ v, b, seq_cons_iff.mpr (Or.inl ⟨u, v, a, rfl, hu, hv⟩), hx⟩
    · exact ⟨i, s, b, seq_cons_iff.mpr (Or.inr ⟨a, ha, hb⟩), hx⟩

theorem possible_seq {P : Phrase α} {Q : α → Phrase β} (hP : P.Possible)
    (hQ : ∀ a, (Q a).Possible) : (P.seq Q).Possible := by
  obtain ⟨u, a, hu⟩ := hP
  obtain ⟨v, b, hv⟩ := hQ a
  exact ⟨u ++ v, b, u, v, a, rfl, hu, hv⟩

theorem after_seq_iff {P : Phrase α} {Q : α → Phrase β} {t : Token} {s : List Item} {b : β} :
    (P.seq Q).after t s b ↔
      (P.after t).seq Q s b ∨ ∃ a, P [] a ∧ (Q a).after t s b := by
  refine ⟨?_, ?_⟩
  · rintro ⟨i, hi, h⟩
    rcases seq_cons_iff.mp h with ⟨u, v, a, rfl, hu, hv⟩ | ⟨a, ha, hb⟩
    · exact Or.inl ⟨u, v, a, rfl, ⟨i, hi, hu⟩, hv⟩
    · exact Or.inr ⟨a, ha, i, hi, hb⟩
  · rintro (⟨u, v, a, rfl, ⟨i, hi, hu⟩, hv⟩ | ⟨a, ha, i, hi, hb⟩)
    · exact ⟨i, hi, seq_cons_iff.mpr (Or.inl ⟨u, v, a, rfl, hu, hv⟩)⟩
    · exact ⟨i, hi, seq_cons_iff.mpr (Or.inr ⟨a, ha, hb⟩)⟩

/-- A token that cannot start the second part is read by the first. -/
theorem after_seq_left {P : Phrase α} {Q : α → Phrase β} {t : Token}
    (h : ∀ a, P [] a → ¬ ((Q a).after t).Possible) :
    (P.seq Q).after t = (P.after t).seq Q := by
  funext s b
  rw [after_seq_iff, eq_iff_iff]
  refine or_iff_left ?_
  rintro ⟨a, ha, hb⟩
  exact h a ha ⟨s, b, hb⟩

/-- A token that cannot carry on the first part is read by the second. -/
theorem after_seq_right {P : Phrase α} {Q : α → Phrase β} {t : Token} {a : α}
    (ha : ∀ b, P [] b ↔ b = a) (h : ¬ (P.after t).Possible) :
    (P.seq Q).after t = (Q a).after t := by
  funext s b
  rw [after_seq_iff, eq_iff_iff]
  refine ⟨?_, ?_⟩
  · rintro (⟨u, v, c, -, hu, -⟩ | ⟨c, hc, hb⟩)
    · exact absurd ⟨u, c, hu⟩ h
    · rwa [← (ha c).mp hc]
  · exact fun hb => Or.inr ⟨a, (ha a).mpr rfl, hb⟩

theorem after_alt_left {P Q : Phrase α} {t : Token} (h : ¬ (Q.after t).Possible) :
    (P.alt Q).after t = P.after t := by
  funext s a
  rw [eq_iff_iff]
  refine ⟨?_, ?_⟩
  · rintro ⟨i, hi, hP | hQ⟩
    · exact ⟨i, hi, hP⟩
    · exact absurd ⟨s, a, i, hi, hQ⟩ h
  · exact fun ⟨i, hi, hP⟩ => ⟨i, hi, Or.inl hP⟩

theorem alt_comm (P Q : Phrase α) : P.alt Q = Q.alt P := by
  funext s a
  exact propext or_comm

theorem next_alt_iff {P Q : Phrase α} {x : Expectation} :
    (P.alt Q).Next x ↔ P.Next x ∨ Q.Next x := by
  refine ⟨?_, ?_⟩
  · rintro ⟨i, s, a, h | h, hx⟩
    · exact Or.inl ⟨i, s, a, h, hx⟩
    · exact Or.inr ⟨i, s, a, h, hx⟩
  · rintro (⟨i, s, a, h, hx⟩ | ⟨i, s, a, h, hx⟩)
    · exact ⟨i, s, a, Or.inl h, hx⟩
    · exact ⟨i, s, a, Or.inr h, hx⟩

theorem after_map (f : α → β) (P : Phrase α) (t : Token) :
    (P.map f).after t = (P.after t).map f := by
  funext s b
  rw [eq_iff_iff]
  refine ⟨?_, ?_⟩
  · rintro ⟨i, hi, a, ha, hb⟩
    exact ⟨a, ⟨i, hi, ha⟩, hb⟩
  · rintro ⟨a, ⟨i, hi, ha⟩, hb⟩
    exact ⟨i, hi, a, ha, hb⟩

theorem possible_map {f : α → β} {P : Phrase α} : (P.map f).Possible ↔ P.Possible := by
  refine ⟨?_, ?_⟩
  · exact fun ⟨s, _, a, ha, _⟩ => ⟨s, a, ha⟩
  · exact fun ⟨s, a, ha⟩ => ⟨s, f a, a, ha, rfl⟩

theorem next_map_iff {f : α → β} {P : Phrase α} {x : Expectation} :
    (P.map f).Next x ↔ P.Next x := by
  refine ⟨?_, ?_⟩
  · exact fun ⟨i, s, _, ⟨a, ha, _⟩, hx⟩ => ⟨i, s, a, ha, hx⟩
  · exact fun ⟨i, s, a, ha, hx⟩ => ⟨i, s, f a, ⟨a, ha, rfl⟩, hx⟩

/-- A repetition is nothing, or a phrase and then a repetition. -/
theorem star_eq (P : Phrase α) :
    P.Star = (P.seq fun a => P.Star.map (a :: ·)).alt (empty []) := by
  funext s as
  rw [eq_iff_iff]
  refine ⟨?_, ?_⟩
  · intro h
    cases h with
    | nil => exact Or.inr ⟨rfl, rfl⟩
    | cons h hs => exact Or.inl ⟨_, _, _, rfl, h, _, hs, rfl⟩
  · rintro (⟨u, v, a, rfl, hu, as, hv, rfl⟩ | ⟨rfl, rfl⟩)
    · exact Star.cons hu hv
    · exact Star.nil

theorem Star.snoc {P : Phrase α} {s u : List Item} {as : List α} {a : α} (hs : P.Star s as)
    (h : P u a) : P.Star (s ++ u) (as ++ [a]) := by
  induction hs with
  | nil => simpa using Star.cons h Star.nil
  | cons hu _ ih => simpa using Star.cons hu ih

/-- Joining from the left is a first phrase and a repetition of operators and phrases, with
the values combined from the left. -/
theorem joined_iff {P : Phrase α} {O : Phrase (α → α → α)} {s : List Item} {a : α} :
    Joined P O s a ↔
      P.seq (fun first => (O.seq fun f => P.map fun b => (f, b)).Star.map fun more =>
        more.foldl (fun left (g, right) => g left right) first) s a := by
  refine ⟨?_, ?_⟩
  · intro h
    induction h with
    | one h => exact ⟨_, [], _, (List.append_nil _).symm, h, [], Star.nil, rfl⟩
    | more _ ho hr ih =>
      obtain ⟨u, v, first, rfl, hu, more, hv, rfl⟩ := ih
      refine ⟨u, _, first, List.append_assoc _ _ _, hu, _, hv.snoc ⟨_, _, _, rfl, ho, _, hr, rfl⟩,
        ?_⟩
      simp only [List.foldl_append, List.foldl_cons, List.foldl_nil]
  · rintro ⟨u, v, first, rfl, hu, more, hv, rfl⟩
    have key : ∀ {v more}, (O.seq fun f => P.map fun b => (f, b)).Star v more →
        ∀ {u first}, Joined P O u first →
          Joined P O (u ++ v) (more.foldl (fun left (g, right) => g left right) first) := by
      intro v more hv
      induction hv with
      | nil => intro u first hu; simpa using hu
      | cons h _ ih =>
        intro u first hu
        obtain ⟨o, w, f, rfl, ho, b, hb, rfl⟩ := h
        have := ih (Joined.more hu ho hb)
        rwa [List.append_assoc] at this
    exact key hv (Joined.one hu)

end Phrase

end AccessPolicy
