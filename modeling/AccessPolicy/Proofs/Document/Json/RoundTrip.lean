import AccessPolicy.Proofs.Document.Json.Numbers
import AccessPolicy.Proofs.Document.Json.Strings

/-!
# JSON texts are read back

A document whose numbers are integers of 64 bits (`Document.Integral`) is written to a text that
is read back as that document if it is not nested too deep, and that is refused if it is
(`Json.read_write`). This holds of every layout that spaces the text with blanks.

Of the text of each sort of document it is shown that the reader takes just this text, in front of
anything that cannot go on with a number, or refuses it for its depth (`Json.ReadsIf`). Lists and
objects are one case (`Json.Brackets`) : they differ only in their brackets and in how an item is
read, and both read their items by `Json.separated`.
-/

namespace AccessPolicy

/-! ## Documents -/

namespace Document

/-- All numbers of the document are integers that fit 64 bits, signed or unsigned. -/
inductive Integral : Document → Prop
  | null : Integral .null
  | bool (b : Bool) : Integral (.bool b)
  | int {k : Int} (low : -(maxInt64 + 1) ≤ k) (high : k ≤ maxUInt64) : Integral (.int k)
  | string (s : String) : Integral (.string s)
  | list {items : List Document} (h : ∀ d ∈ items, Integral d) : Integral (.list items)
  | object {fields : List (String × Document)} (h : ∀ f ∈ fields, Integral f.2) :
    Integral (.object fields)

end Document

namespace Json

/-! ## Blanks -/

/-- The layout puts nothing but blanks between the parts of a text. -/
structure Layout.Blank (l : Layout) : Prop where
  newline : ∀ n, ∀ c ∈ l.newline n, isBlank c = true
  colon : ∃ gap, l.colon = ':' :: gap ∧ ∀ c ∈ gap, isBlank c = true

theorem prettyLayout_blank : prettyLayout.Blank where
  newline n c hc := by
    cases hc with
    | head => rfl
    | tail _ hc => rw [List.eq_of_mem_replicate hc]; rfl
  colon := ⟨[' '], rfl, by simp [isBlank]⟩

variable {gap cs rest : List Char}

theorem skip_append (h : ∀ c ∈ gap, isBlank c = true) : skip (gap ++ cs) = skip cs :=
  List.dropWhile_append_of_pos h

theorem skip_cons {c : Char} (h : isBlank c = false) : skip (c :: cs) = c :: cs :=
  List.dropWhile_cons_of_neg (by simp [h])

theorem value_append (k : Nat) (h : ∀ c ∈ gap, isBlank c = true) :
    value k (gap ++ cs) = value k cs := by
  unfold value
  simp only [skip_append h]

theorem field_append (item : List Char → Option (Document × List Char))
    (h : ∀ c ∈ gap, isBlank c = true) : field item (gap ++ cs) = field item cs := by
  unfold field
  simp only [skip_append h]

/-! ## Readers and texts -/

/-- The text goes on with something that is no part of a number, or ends. -/
def EndsNumber (rest : List Char) : Prop :=
  ∀ c ∈ rest.head?, isNumberPart c = false

/-- The reader takes just `text` and gives `a` if `fits`, and otherwise refuses it. -/
def ReadsIf {α : Type} (reader : List Char → Option (α × List Char)) (text : List Char) (a : α)
    (fits : Prop) [Decidable fits] : Prop :=
  ∀ rest, EndsNumber rest → reader (text ++ rest) = if fits then some (a, rest) else none

theorem not_isNumberPart_of_isBlank {c : Char} (h : isBlank c = true) : isNumberPart c = false := by
  simp only [isBlank, Bool.or_eq_true, decide_eq_true_eq] at h
  rcases h with ((rfl | rfl) | rfl) | rfl <;> decide

theorem endsNumber_append {c : Char} (hgap : ∀ d ∈ gap, isBlank d = true)
    (hc : isNumberPart c = false) : EndsNumber (gap ++ c :: rest) := by
  intro d hd
  cases gap with
  | nil => rwa [← Option.some.inj hd]
  | cons b gap =>
    rw [← Option.some.inj hd]
    exact not_isNumberPart_of_isBlank (hgap b List.mem_cons_self)

section ReadsIf

variable {α : Type} {reader : List Char → Option (α × List Char)} {text : List Char} {a : α}
  {p q : Prop} [Decidable p] [Decidable q]

theorem ReadsIf.congr (h : ReadsIf reader text a p) (hpq : p ↔ q) : ReadsIf reader text a q := by
  intro rest hrest
  rw [h rest hrest]
  exact if_congr hpq rfl rfl

theorem ReadsIf.append (h : ReadsIf reader text a p)
    (hskip : ∀ cs, reader (gap ++ cs) = reader cs) : ReadsIf reader (gap ++ text) a p := by
  intro rest hrest
  rw [List.append_assoc, hskip, h rest hrest]

end ReadsIf

/-! ## Values that stand alone -/

theorem value_quote (k : Nat) :
    value k ('"' :: rest) =
      (stringBody rest).map fun (s, more) => (.string (String.ofList s), more) := by
  rw [value]
  rfl

theorem quoted_append (s : String) :
    quoted s ++ rest = '"' :: (s.toList.flatMap escape ++ '"' :: rest) := by
  simp [quoted]

theorem readsIf_string (k : Nat) (s : String) : ReadsIf (value k) (quoted s) (.string s) True := by
  intro rest _
  rw [quoted_append, value_quote, stringBody_flatMap_escape]
  simp

/-- A text that is made of parts of numbers is read as a number. -/
theorem value_number (k : Nat) {w : List Char} (hw : ∀ c ∈ w, isNumberPart c = true) (hne : w ≠ [])
    (hrest : EndsNumber rest) : value k (w ++ rest) = (number? w).map fun d => (d, rest) := by
  have htake : (w ++ rest).takeWhile isNumberPart = w := takeWhile_append_of_head? hw hrest
  have hdrop : (w ++ rest).dropWhile isNumberPart = rest := dropWhile_append_of_head? hw hrest
  obtain ⟨c, cs, rfl⟩ := List.exists_cons_of_ne_nil hne
  have hother : ∀ d : Char, isNumberPart d = false → c ≠ d := fun d hd hcd =>
    absurd (hw c List.mem_cons_self) (by simp [hcd, hd])
  have hblank : isBlank c = false := Bool.eq_false_iff.mpr fun hblank =>
    absurd (hw c List.mem_cons_self) (by simp [not_isNumberPart_of_isBlank hblank])
  rw [List.cons_append] at htake hdrop ⊢
  rw [value, skip_cons hblank]
  simp only [if_neg (hother _ (rfl : isNumberPart '"' = false)),
    if_neg (hother _ (rfl : isNumberPart '[' = false)),
    if_neg (hother _ (rfl : isNumberPart '\x7b' = false)),
    if_neg (hother _ (rfl : isNumberPart 'n' = false)),
    if_neg (hother _ (rfl : isNumberPart 't' = false)),
    if_neg (hother _ (rfl : isNumberPart 'f' = false)), htake, hdrop]

theorem readsIf_int (k : Nat) {n : Int} (hlow : -(maxInt64 + 1) ≤ n) (hhigh : n ≤ maxUInt64) :
    ReadsIf (value k) n.repr.toList (.int n) True := by
  intro rest hrest
  rw [value_number k (fun c => isNumberPart_of_mem_repr) (repr_ne_nil n) hrest,
    number?_repr hlow hhigh]
  rfl

theorem readsIf_null (k : Nat) : ReadsIf (value k) "null".toList .null True := by
  intro rest _
  have htext : "null".toList = ['n', 'u', 'l', 'l'] := rfl
  rw [value, htext]
  rfl

theorem readsIf_true (k : Nat) : ReadsIf (value k) "true".toList (.bool true) True := by
  intro rest _
  have htext : "true".toList = ['t', 'r', 'u', 'e'] := rfl
  rw [value, htext]
  rfl

theorem readsIf_false (k : Nat) : ReadsIf (value k) "false".toList (.bool false) True := by
  intro rest _
  have htext : "false".toList = ['f', 'a', 'l', 's', 'e'] := rfl
  rw [value, htext]
  rfl

/-! ## Items between commas -/

section Items

variable {α : Type} {item : List Char → Option (α × List Char)} {close : Char} {a : α}

theorem separated_of_none (hitem : item cs = none) : separated item close cs = none := by
  rw [separated, hitem]

theorem separated_of_close (hitem : item cs = some (a, gap ++ close :: rest))
    (hgap : ∀ c ∈ gap, isBlank c = true) (hclose : isBlank close = false) :
    separated item close cs = some ([a], rest) := by
  rw [separated, hitem]
  simp only [skip_append hgap, skip_cons hclose, if_pos]

theorem separated_of_comma {more : List Char} (hitem : item cs = some (a, ',' :: more))
    (hless : more.length < cs.length) (hclose : close ≠ ',') :
    separated item close cs =
      (separated item close more).map fun (as, last) => (a :: as, last) := by
  have hskip : skip (',' :: more) = ',' :: more := skip_cons (by decide)
  rw [separated, hitem]
  simp only [hskip, if_neg hclose.symm, if_pos, dif_pos hless]

/-- The items after the first, a comma before each, up to the end of the list. -/
def following (t : α → List Char) (as : List α) (gap : List Char) (close : Char) : List Char :=
  as.flatMap (fun a => ',' :: t a) ++ gap ++ [close]

theorem endsNumber_following (t : α → List Char) (as : List α)
    (hgap : ∀ c ∈ gap, isBlank c = true) (hclose : isNumberPart close = false) :
    EndsNumber (following t as gap close ++ rest) := by
  cases as with
  | nil =>
    have hend : EndsNumber (gap ++ close :: rest) := endsNumber_append hgap hclose
    simpa [following] using hend
  | cons a as =>
    intro c hc
    rw [← Option.some.inj hc]
    decide

/-- Items that are each read if they fit are read together if all of them fit. -/
theorem ReadsIf.separated {t : α → List Char} {fits : α → Prop} [DecidablePred fits] {as : List α}
    (h : ∀ b ∈ a :: as, ReadsIf item (t b) b (fits b)) (hgap : ∀ c ∈ gap, isBlank c = true)
    (hblank : isBlank close = false) (hnumber : isNumberPart close = false) (hcomma : close ≠ ',') :
    ReadsIf (separated item close) (t a ++ following t as gap close) (a :: as)
      (∀ b ∈ a :: as, fits b) := by
  intro rest _
  induction as generalizing a with
  | nil =>
    have hends : EndsNumber (gap ++ close :: rest) := endsNumber_append hgap hnumber
    have hitem := h a List.mem_cons_self _ hends
    have htext : t a ++ following t [] gap close ++ rest = t a ++ (gap ++ close :: rest) := by
      simp [following]
    rw [htext]
    by_cases ha : fits a
    · rw [if_pos ha] at hitem
      rw [separated_of_close hitem hgap hblank, if_pos (by simpa using ha)]
    · rw [if_neg ha] at hitem
      rw [separated_of_none hitem, if_neg (by simpa using ha)]
  | cons b bs ih =>
    have hmore := ih (fun c hc => h c (List.mem_cons_of_mem a hc))
    have htext : t a ++ following t (b :: bs) gap close ++ rest =
        t a ++ ',' :: (t b ++ following t bs gap close ++ rest) := by
      simp [following]
    have hitem := h a List.mem_cons_self (',' :: (t b ++ following t bs gap close ++ rest))
      (fun c hc => by rw [← Option.some.inj hc]; decide)
    rw [htext]
    by_cases ha : fits a
    · rw [if_pos ha] at hitem
      rw [separated_of_comma hitem (by simp; omega) hcomma, hmore]
      by_cases hbs : ∀ c ∈ b :: bs, fits c
      · rw [if_pos hbs, if_pos (List.forall_mem_cons.mpr ⟨ha, hbs⟩)]
        rfl
      · rw [if_neg hbs, if_neg fun hall => hbs (List.forall_mem_cons.mp hall).2]
        rfl
    · rw [if_neg ha] at hitem
      rw [separated_of_none hitem, if_neg fun hall => ha (List.forall_mem_cons.mp hall).1]

end Items

/-! ## Fields -/

theorem ReadsIf.field {k : Nat} {text : List Char} {d : Document} {fits : Prop} [Decidable fits]
    (h : ReadsIf (value k) text d fits) {l : Layout} (hl : l.Blank) (key : String) :
    ReadsIf (field (value k)) (quoted key ++ l.colon ++ text) (key, d) fits := by
  intro rest hrest
  obtain ⟨gap, hcolon, hgap⟩ := hl.colon
  have htext : quoted key ++ l.colon ++ text ++ rest =
      '"' :: (key.toList.flatMap escape ++ '"' :: ':' :: (gap ++ (text ++ rest))) := by
    simp [quoted, hcolon]
  have hquote : ∀ cs, skip ('"' :: cs) = '"' :: cs := fun _ => skip_cons (by decide)
  have hcolon : ∀ cs, skip (':' :: cs) = ':' :: cs := fun _ => skip_cons (by decide)
  rw [htext, Json.field, hquote]
  simp only [stringBody_flatMap_escape, hcolon, value_append k hgap, h rest hrest]
  split <;> simp

/-! ## Lists and objects -/

/-- The brackets around the items of a document, and how a value between them is read. -/
structure Brackets (α : Type) where
  opening : Char
  close : Char
  /-- The reader of an item, given how deep the item may be. -/
  item : Nat → List Char → Option (α × List Char)
  /-- The document that has the items. -/
  wrap : List α → Document
  isBlank_close : isBlank close = false
  isNumberPart_close : isNumberPart close = false
  close_ne_comma : close ≠ ','
  /-- No item starts like the end of the items. -/
  item_close : ∀ (k : Nat) {cs rest : List Char}, skip cs = close :: rest → item k cs = none
  value_zero : ∀ rest : List Char, value 0 (opening :: rest) = none
  value_empty : ∀ (k : Nat) (rest : List Char),
    value (k + 1) (opening :: close :: rest) = some (wrap [], rest)
  value_items : ∀ (k : Nat) {rest : List Char}, (∀ more, skip rest ≠ close :: more) →
    value (k + 1) (opening :: rest) =
      (separated (item k) close rest).map fun (as, more) => (wrap as, more)

/-- The brackets of a list. -/
def Brackets.ofList : Brackets Document where
  opening := '['
  close := ']'
  item := value
  wrap := .list
  isBlank_close := by decide
  isNumberPart_close := by decide
  close_ne_comma := by decide
  item_close k cs rest h := by rw [value, h]; rfl
  value_zero rest := by rw [value]; rfl
  value_empty k rest := by rw [value]; rfl
  value_items k rest h := by
    have hskip : skip ('[' :: rest) = '[' :: rest := skip_cons (by decide)
    rw [value, hskip]
    simp only [if_neg (by decide : '[' ≠ '"'), if_pos]

/-- The brackets of an object. -/
def Brackets.ofObject : Brackets (String × Document) where
  opening := '\x7b'
  close := '\x7d'
  item k := field (value k)
  wrap := .object
  isBlank_close := by decide
  isNumberPart_close := by decide
  close_ne_comma := by decide
  item_close k cs rest h := by rw [field, h]; rfl
  value_zero rest := by rw [value]; rfl
  value_empty k rest := by rw [value]; rfl
  value_items k rest h := by
    have hskip : skip ('\x7b' :: rest) = '\x7b' :: rest := skip_cons (by decide)
    rw [value, hskip]
    simp only [if_neg (by decide : '\x7b' ≠ '"'), if_neg (by decide : '\x7b' ≠ '['), if_pos]

namespace Brackets

variable {α : Type} (b : Brackets α) {t : α → List Char} {depth : α → Nat} {a : α} {as : List α}

theorem readsIf_empty (k : Nat) :
    ReadsIf (value k) [b.opening, b.close] (b.wrap []) (0 < k) := by
  intro rest _
  cases k with
  | zero => exact b.value_zero _
  | succ k => exact b.value_empty k rest

/-- Items that are each read if they are not too deep are read together, one level less deep. -/
theorem readsIf_items (h : ∀ x ∈ a :: as, ∀ k, ReadsIf (b.item k) (t x) x (depth x ≤ k))
    (hgap : ∀ c ∈ gap, isBlank c = true) (k : Nat) :
    ReadsIf (value k) (b.opening :: (t a ++ following t as gap b.close)) (b.wrap (a :: as))
      (0 < k ∧ ∀ x ∈ a :: as, depth x ≤ k - 1) := by
  intro rest hrest
  cases k with
  | zero => exact b.value_zero _
  | succ k =>
    -- With enough depth the first item would be read, so it does not start with the bracket.
    have hstart : ∀ more,
        skip (t a ++ following t as gap b.close ++ rest) ≠ b.close :: more := by
      intro more hmore
      have hfirst := h a List.mem_cons_self (depth a) (following t as gap b.close ++ rest)
        (endsNumber_following t as hgap b.isNumberPart_close)
      rw [← List.append_assoc, b.item_close _ hmore, if_pos (Nat.le_refl _)] at hfirst
      exact nomatch hfirst
    have hitems := ReadsIf.separated (fun x hx => h x hx k) hgap b.isBlank_close
      b.isNumberPart_close b.close_ne_comma rest hrest
    rw [List.cons_append, b.value_items k hstart, hitems]
    by_cases hfits : ∀ x ∈ a :: as, depth x ≤ k
    · rw [if_pos hfits, if_pos ⟨Nat.succ_pos k, hfits⟩]
      rfl
    · rw [if_neg hfits, if_neg fun hall => hfits hall.2]
      rfl

end Brackets

/-! ## Documents -/

theorem writeItems_eq (l : Layout) (n : Nat) (ds : List Document) :
    writeItems l n ds = ds.flatMap fun d => ',' :: (l.newline n ++ write l n d) := by
  induction ds with
  | nil => rfl
  | cons d ds ih => exact congrArg (',' :: l.newline n ++ write l n d ++ ·) ih

theorem writeFields_eq (l : Layout) (n : Nat) (fs : List (String × Document)) :
    writeFields l n fs =
      fs.flatMap fun f => ',' :: (l.newline n ++ (quoted f.1 ++ l.colon ++ write l n f.2)) := by
  induction fs with
  | nil => rfl
  | cons f fs ih =>
    have hfirst : writeFields l n (f :: fs) =
        ',' :: l.newline n ++ quoted f.1 ++ l.colon ++ write l n f.2 ++ writeFields l n fs := rfl
    rw [hfirst, ih]
    simp

theorem write_list_cons (l : Layout) (n : Nat) (d : Document) (ds : List Document) :
    write l n (.list (d :: ds)) =
      '[' :: (l.newline (n + 1) ++ write l (n + 1) d ++
        following (fun d => l.newline (n + 1) ++ write l (n + 1) d) ds (l.newline n) ']') := by
  have hwrite : write l n (.list (d :: ds)) =
      '[' :: l.newline (n + 1) ++ write l (n + 1) d ++ writeItems l (n + 1) ds ++ l.newline n ++
        [']'] := rfl
  simp [hwrite, writeItems_eq, following]

theorem write_object_cons (l : Layout) (n : Nat) (f : String × Document)
    (fs : List (String × Document)) :
    write l n (.object (f :: fs)) =
      '\x7b' :: (l.newline (n + 1) ++ (quoted f.1 ++ l.colon ++ write l (n + 1) f.2) ++
        following (fun f => l.newline (n + 1) ++ (quoted f.1 ++ l.colon ++ write l (n + 1) f.2)) fs
          (l.newline n) '\x7d') := by
  have hwrite : write l n (.object (f :: fs)) =
      '\x7b' :: l.newline (n + 1) ++ quoted f.1 ++ l.colon ++ write l (n + 1) f.2 ++
        writeFields l (n + 1) fs ++ l.newline n ++ ['\x7d'] := rfl
  simp [hwrite, writeFields_eq, following]

/-- A document is read from its text, at any level of it, if it is not too deep. -/
theorem readsIf_write {l : Layout} (hl : l.Blank) {d : Document} (hd : d.Integral) (k n : Nat) :
    ReadsIf (value k) (write l n d) d (d.depth ≤ k) := by
  induction hd generalizing k n with
  | null => exact (readsIf_null k).congr (iff_of_true trivial (Nat.zero_le k))
  | bool b =>
    cases b with
    | true => exact (readsIf_true k).congr (iff_of_true trivial (Nat.zero_le k))
    | false => exact (readsIf_false k).congr (iff_of_true trivial (Nat.zero_le k))
  | int low high => exact (readsIf_int k low high).congr (iff_of_true trivial (Nat.zero_le k))
  | string s => exact (readsIf_string k s).congr (iff_of_true trivial (Nat.zero_le k))
  | @list items _ ih =>
    cases items with
    | nil => exact (Brackets.ofList.readsIf_empty k).congr Iff.rfl
    | cons d ds =>
      have hitems := Brackets.ofList.readsIf_items (fun x hx k =>
        (ih x hx k (n + 1)).append fun cs => value_append k (hl.newline (n + 1))) (hl.newline n) k
      rw [write_list_cons]
      refine hitems.congr ?_
      rw [← Document.depthItems_le_iff, Document.depth]
      omega
  | @object fields _ ih =>
    cases fields with
    | nil => exact (Brackets.ofObject.readsIf_empty k).congr Iff.rfl
    | cons f fs =>
      have hitems := Brackets.ofObject.readsIf_items (fun x hx k =>
        ((ih x hx k (n + 1)).field hl x.1).append fun cs =>
          field_append (value k) (hl.newline (n + 1))) (hl.newline n) k
      rw [write_object_cons]
      refine hitems.congr ?_
      rw [← Document.depthFields_le_iff, Document.depth]
      omega

/-- The text of a document is read back as that document if it is not too deep, and is refused if it
is. -/
theorem read_write {l : Layout} (hl : l.Blank) {d : Document} (hd : d.Integral) (k n : Nat) :
    read k (String.ofList (write l n d)) = if d.depth ≤ k then some d else none := by
  have hvalue := readsIf_write hl hd k n [] nofun
  rw [List.append_nil] at hvalue
  rw [read, String.toList_ofList, hvalue]
  by_cases hfits : d.depth ≤ k
  · rw [if_pos hfits, if_pos hfits]
    rfl
  · rw [if_neg hfits, if_neg hfits]

end Json

end AccessPolicy
