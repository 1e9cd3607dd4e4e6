import AccessPolicy.Proofs.Document.Yaml.Stream

/-!
# Cutting blocks

Lines are laid out at a margin, the first of them starting where the text does (`Yaml.layout`). A
block is the lines of some items or some fields (`Yaml.Block`), and a value is what stands behind
the dash of an item or further in than its key (`Yaml.Value`). Either is cut into its tokens
whatever comes after it, and the collections are closed that what comes next is outside of. Blocks
one below the other are a block (`Yaml.Block.append`), an item with a value is a block of one
(`Yaml.Value.item`), and so is a field, in three ways : its value stands on its line, or below it
and further in, or it is a block that stands no further in. A text that is a block is cut into the
tokens of one collection (`Yaml.Block.tokens?_eq`).
-/

namespace AccessPolicy.Yaml

/-! ## Layout -/

/-- The text of some lines at a margin, the first of which starts where the text does. -/
def layout (m : Nat) : List (List Char) → List Char
  | [] => []
  | [l] => l ++ ['\n']
  | l :: k :: ls => l ++ '\n' :: (List.replicate m ' ' ++ layout m (k :: ls))

variable {m n : Nat} {l : List Char} {ls ks : List (List Char)}

theorem layout_cons (h : ls ≠ []) :
    layout m (l :: ls) = l ++ '\n' :: (List.replicate m ' ' ++ layout m ls) := by
  cases ls with
  | nil => exact absurd rfl h
  | cons k ls => rfl

theorem layout_append (h : ls ≠ []) (h' : ks ≠ []) :
    layout m (ls ++ ks) = layout m ls ++ (List.replicate m ' ' ++ layout m ks) := by
  induction ls with
  | nil => exact absurd rfl h
  | cons l ls ih =>
    by_cases hls : ls = []
    · subst hls
      rw [List.singleton_append, layout_cons h', layout]
      simp
    · rw [List.cons_append, layout_cons (by simp [hls]), ih hls, layout_cons hls]
      simp

/-- Lines with two spaces in front are lines at a margin two further in. -/
theorem layout_indent (h : ls ≠ []) :
    layout m (ls.map ([' ', ' '] ++ ·)) = [' ', ' '] ++ layout (m + 2) ls := by
  have hmargin : List.replicate (m + 2) ' ' = List.replicate m ' ' ++ [' ', ' '] :=
    List.replicate_add m 2 ' '
  induction ls with
  | nil => exact absurd rfl h
  | cons l ls ih =>
    by_cases hls : ls = []
    · subst hls
      rfl
    · rw [List.map_cons, layout_cons (by simp [hls]), ih hls, layout_cons hls, hmargin]
      simp

theorem layout_hang (lead : List Char) (h : ls ≠ []) :
    layout m (hang lead ls) = lead ++ layout (m + 2) ls := by
  have hmargin : List.replicate (m + 2) ' ' = List.replicate m ' ' ++ [' ', ' '] :=
    List.replicate_add m 2 ' '
  cases ls with
  | nil => exact absurd rfl h
  | cons l ls =>
    by_cases hls : ls = []
    · subst hls
      simp [hang, layout]
    · rw [hang, layout_cons (by simp [hls]), layout_indent hls, layout_cons hls, hmargin]
      simp

theorem flatMap_eq_layout (ls : List (List Char)) : ls.flatMap (· ++ ['\n']) = layout 0 ls := by
  induction ls with
  | nil => rfl
  | cons l ls ih =>
    by_cases hls : ls = []
    · subst hls
      simp [layout]
    · rw [List.flatMap_cons, ih, layout_cons hls]
      simp

/-! ## Blocks and values -/

/-- What starts with these lines starts with a word. -/
def Opening (ls : List (List Char)) : Prop :=
  ∀ m rest, Resumes (layout m ls ++ rest)

/-- The lines are items or fields that are cut into the tokens, in a collection that is open at
their margin or is opened there by `t`. -/
structure Block (t : Token) (ls : List (List Char)) (ts : List Token) : Prop where
  ne_nil : ls ≠ []
  opening : Opening ls
  reaches : ∀ {m n : Nat} {columns columns' : List Nat} {tokens tokens' : List Token} {cur : Cursor}
    {tail : List Char}, Stream.Opens t m columns tokens columns' tokens' →
    cur.At m (layout m ls ++ (List.replicate n ' ' ++ tail)) → n ≤ m → Resumes tail →
    ∃ next : Cursor, next.At n tail ∧ Stream.Reaches (Stream.ready true columns tokens cur)
      ((Stream.ready true columns' (ts.reverse ++ tokens') next).closeWhile (n < ·))

/-- The lines are a value further in than the collection it is in, and are cut into the tokens. -/
structure Value (ls : List (List Char)) (ts : List Token) : Prop where
  ne_nil : ls ≠ []
  opening : Opening ls
  reaches : ∀ {m n c : Nat} {columns : List Nat} {tokens : List Token} {cur : Cursor}
    {tail : List Char}, c < m → cur.At m (layout m ls ++ (List.replicate n ' ' ++ tail)) → n ≤ c →
    Resumes tail → ∃ next : Cursor, next.At n tail ∧
      Stream.Reaches (Stream.ready true (c :: columns) tokens cur)
        ((Stream.ready true (c :: columns) (ts.reverse ++ tokens) next).closeWhile (n < ·))

variable {t : Token} {ts us : List Token}

/-- One block below another is a block. -/
theorem Block.append (h : Block t ls ts) (h' : Block t ks us) : Block t (ls ++ ks) (ts ++ us) where
  ne_nil := by simp [h.ne_nil]
  opening m rest := by
    rw [layout_append h.ne_nil h'.ne_nil, List.append_assoc]
    exact h.opening m _
  reaches {m n columns columns' tokens tokens' cur tail} hopens hat hn htail := by
    rw [layout_append h.ne_nil h'.ne_nil] at hat
    simp only [List.append_assoc] at hat
    obtain ⟨next, hnext, hfirst⟩ := h.reaches hopens hat (Nat.le_refl m) (h'.opening m _)
    have hhead := hopens.head?_eq
    have hstay : (Stream.ready true columns' (ts.reverse ++ tokens') next).closeWhile (m < ·) =
        Stream.ready true columns' (ts.reverse ++ tokens') next :=
      Stream.closeWhile_pending fun c hc => Nat.le_of_eq (Option.some.inj (hc.symm.trans hhead))
    have hopen : Stream.Opens t m columns' (ts.reverse ++ tokens') columns'
        (ts.reverse ++ tokens') := .already hhead
    obtain ⟨last, hlast, hsecond⟩ := h'.reaches hopen hnext hn htail
    rw [hstay] at hfirst
    rw [← List.append_assoc, ← List.reverse_append] at hsecond
    exact ⟨last, hlast, hfirst.trans hsecond⟩

/-- Blocks one below the other are a block. -/
theorem Block.flatMap {α : Type} {f : α → List (List Char)} {g : α → List Token} {a : α}
    {as : List α} (h : ∀ x ∈ a :: as, Block t (f x) (g x)) :
    Block t ((a :: as).flatMap f) ((a :: as).flatMap g) := by
  induction as generalizing a with
  | nil => simpa using h a
  | cons b bs ih =>
    obtain ⟨hfirst, hrest⟩ := List.forall_mem_cons.mp h
    exact hfirst.append (ih hrest)

/-- A block is a value if its collection is opened and closed. -/
theorem Block.value (h : Block t ls ts) : Value ls (t :: ts ++ [.blockEnd]) where
  ne_nil := h.ne_nil
  opening := h.opening
  reaches {m n c columns tokens cur tail} hc hat hn htail := by
    have hopens : Stream.Opens t m (c :: columns) tokens (m :: c :: columns) (t :: tokens) :=
      .anew fun d hd => by rwa [← Option.some.inj hd]
    obtain ⟨next, hnext, hreaches⟩ := h.reaches hopens hat (by omega) htail
    rw [Stream.closeWhile_cons (by simp; omega)] at hreaches
    refine ⟨next, hnext, ?_⟩
    simpa using hreaches

/-- A value behind a dash is a block. -/
theorem Value.item (h : Value ls ts) : Block .blockSequence (hang ['-', ' '] ls) (.item :: ts) where
  ne_nil := by
    obtain ⟨l, ls, rfl⟩ := List.exists_cons_of_ne_nil h.ne_nil
    simp [hang]
  opening m rest := by
    rw [layout_hang _ h.ne_nil]
    simp [Resumes]
    decide
  reaches {m n columns columns' tokens tokens' cur tail} hopens hat hn htail := by
    obtain ⟨rfl, hrest⟩ := hat
    rw [layout_hang _ h.ne_nil, List.append_assoc] at hrest
    have hcut := Stream.cuts_item hopens hrest (h.opening _ _)
    obtain ⟨more, rfl⟩ := List.head?_eq_some_iff.mp hopens.head?_eq
    have hat : Cursor.At ⟨cur.place.past ['-', ' '],
        layout (cur.place.column + 2) ls ++ (List.replicate n ' ' ++ tail)⟩ (cur.place.column + 2)
        (layout (cur.place.column + 2) ls ++ (List.replicate n ' ' ++ tail)) :=
      ⟨Place.column_past (by simp [isBreak]), rfl⟩
    obtain ⟨next, hnext, hreaches⟩ := h.reaches (by omega) hat hn htail
    refine ⟨next, hnext, ?_⟩
    have hall := hreaches.head hcut
    simpa using hall

/-! ## Values on one line -/

/-- The text is a value on one line that is cut into the tokens, behind a colon or at the start of
a value. -/
structure Inline (text : List Char) (ts : List Token) : Prop where
  resumes : ∀ rest, Resumes (text ++ rest)
  reaches : ∀ {allowed : Bool} {m n c : Nat} {columns : List Nat} {tokens : List Token}
    {cur : Cursor} {tail : List Char}, c < m →
    cur.At m (text ++ '\n' :: (List.replicate n ' ' ++ tail)) → n ≤ c → Resumes tail →
    ∃ next : Cursor, next.At n tail ∧
      Stream.Reaches (Stream.ready allowed (c :: columns) tokens cur)
        ((Stream.ready true (c :: columns) (ts.reverse ++ tokens) next).closeWhile (n < ·))

variable {text key : List Char}

theorem Spells.inline {style : Style} {cs : List Char} (h : Spells text style cs) :
    Inline text [.scalar style (String.ofList cs)] where
  resumes rest := by
    cases h with
    | plain h => exact h.resumes
    | single h => simp [singleQuoted, Resumes]; decide
    | double cs => simp [doubleQuoted, Resumes]; decide
  reaches {allowed m n c columns tokens cur tail} hc hat hn htail := by
    obtain ⟨rfl, hrest⟩ := hat
    have hother : some c ≠ some cur.place.column := fun heq => hc.ne (Option.some.inj heq)
    exact ⟨_, ⟨Stream.column_below, rfl⟩, .single (Stream.cuts_scalar h (by omega) hc
      (fun _ => hother) hrest (Nat.lt_succ_of_le hn) htail)⟩

theorem inline_brackets {o c : Char} {u : Token} (h : (o, c, t, u) ∈ Stream.brackets) :
    Inline [o, c] [t, u] where
  resumes rest := by
    simp only [Stream.brackets, List.mem_cons, Prod.mk.injEq, List.not_mem_nil, or_false] at h
    rcases h with ⟨rfl, rfl, rfl, rfl⟩ | ⟨rfl, rfl, rfl, rfl⟩
    all_goals simp [Resumes]; decide
  reaches {allowed m n d columns tokens cur tail} hd hat hn htail := by
    obtain ⟨rfl, hrest⟩ := hat
    have hother : some d ≠ some cur.place.column := fun heq => hd.ne (Option.some.inj heq)
    exact ⟨_, ⟨Stream.column_below, rfl⟩,
      Stream.reaches_brackets h (fun _ => hother) hrest htail⟩

theorem Inline.value (h : Inline text ts) : Value [text] ts where
  ne_nil := by simp
  opening m rest := by
    rw [layout, List.append_assoc]
    exact h.resumes _
  reaches {m n c columns tokens cur tail} hc hat hn htail := by
    rw [layout, List.append_assoc] at hat
    exact h.reaches hc hat hn htail

/-! ## Fields -/

/-- The tokens of a field in front of those of its value. -/
def keyTokens (key : List Char) : List Token :=
  [.key, .scalar .plain (String.ofList key), .value]

theorem endsWord_of_isSpace {c : Char} {cs : List Char} (h : isSpace c = true) :
    endsWord (c :: cs) = true := h

/-- A key with a value on its line is a block. -/
theorem Inline.field (h : Inline text ts) (hkey : IsKey key) :
    Block .blockMapping [key ++ [':', ' '] ++ text] (keyTokens key ++ ts) where
  ne_nil := by simp
  opening m rest := by
    simp only [layout, List.append_assoc]
    exact hkey.isPlain.resumes
  reaches {m n columns columns' tokens tokens' cur tail} hopens hat hn htail := by
    obtain ⟨rfl, hrest⟩ := hat
    simp only [layout, List.append_assoc, List.cons_append, List.nil_append] at hrest
    have hsettled : Stream.settled false false false ((cur.place.past key).step ':')
        (' ' :: (text ++ '\n' :: (List.replicate n ' ' ++ tail))) =
        (false, ⟨((cur.place.past key).step ':').past [' '],
          text ++ '\n' :: (List.replicate n ' ' ++ tail)⟩) :=
      Stream.settled_spaces 1 (h.resumes _)
    have hcolumn : (((cur.place.past key).step ':').past [' ']).column =
        cur.place.column + key.length + 2 := by
      rw [← Place.past_cons, ← Place.past_append, Place.column_past, List.length_append]
      · rfl
      · exact List.forall_mem_append.mpr
          ⟨fun c hc => (isSpace_eq_false_iff.mp (hkey.not_isSpace c hc)).2, by simp [isBreak]⟩
    have hcut := Stream.reaches_key hkey hopens hrest (endsWord_of_isSpace rfl) hsettled
      (by simp only [hcolumn]; omega) (Nat.le_succ _)
    obtain ⟨more, rfl⟩ := List.head?_eq_some_iff.mp hopens.head?_eq
    have hfurther : cur.place.column < cur.place.column + key.length + 2 := by omega
    have hbehind : Cursor.At ⟨((cur.place.past key).step ':').past [' '],
        text ++ '\n' :: (List.replicate n ' ' ++ tail)⟩ (cur.place.column + key.length + 2)
        (text ++ '\n' :: (List.replicate n ' ' ++ tail)) := ⟨hcolumn, rfl⟩
    obtain ⟨next, hnext, hvalue⟩ := h.reaches hfurther hbehind hn htail
    refine ⟨next, hnext, ?_⟩
    simpa [keyTokens] using hcut.trans hvalue

/-- The text behind a key whose value is below it, `k` further in. -/
theorem reaches_below {k : Nat} {rest : List Char} {columns columns' : List Nat}
    {tokens tokens' : List Token} {cur : Cursor} (hkey : IsKey key)
    (hopens : Stream.Opens .blockMapping m columns tokens columns' tokens')
    (hat : cur.At m (key ++ [':'] ++ '\n' :: (List.replicate (m + k) ' ' ++ rest)))
    (hrest : Resumes rest) : ∃ next : Cursor, next.At (m + k) rest ∧
      Stream.Reaches (Stream.ready true columns tokens cur)
        (Stream.ready true columns' ((keyTokens key).reverse ++ tokens') next) := by
  obtain ⟨rfl, hcur⟩ := hat
  rw [List.append_assoc, List.singleton_append] at hcur
  have hsettled : Stream.settled false false false ((cur.place.past key).step ':')
      ('\n' :: (List.replicate (cur.place.column + k) ' ' ++ rest)) =
      (true, ⟨((cur.place.past key).step ':').past
        ('\n' :: List.replicate (cur.place.column + k) ' '), rest⟩) :=
    Stream.settled_newline _ hrest
  have hcolumn := Place.column_past_margin ((cur.place.past key).step ':') (cur.place.column + k)
  refine ⟨_, ⟨hcolumn, rfl⟩, Stream.reaches_key hkey hopens hcur (endsWord_of_isSpace rfl) hsettled
    (Nat.le_trans (Nat.le_add_right _ k) (Nat.le_of_eq hcolumn.symm)) ?_⟩
  simp only [List.length_cons, List.length_append]
  omega

/-- A key with a value below it is a block, if the value stands two further in. -/
theorem Value.field (h : Value ls ts) (hkey : IsKey key) :
    Block .blockMapping ((key ++ [':']) :: ls.map ([' ', ' '] ++ ·)) (keyTokens key ++ ts) where
  ne_nil := by simp
  opening m rest := by
    rw [layout_cons (by simp [h.ne_nil])]
    simp only [List.append_assoc]
    exact hkey.isPlain.resumes
  reaches {m n columns columns' tokens tokens' cur tail} hopens hat hn htail := by
    have hmargin : List.replicate (m + 2) ' ' = List.replicate m ' ' ++ [' ', ' '] :=
      List.replicate_add m 2 ' '
    have hbelow : cur.At m (key ++ [':'] ++ '\n' :: (List.replicate (m + 2) ' ' ++
        (layout (m + 2) ls ++ (List.replicate n ' ' ++ tail)))) := by
      rw [layout_cons (by simp [h.ne_nil]), layout_indent h.ne_nil] at hat
      rw [hmargin]
      simpa using hat
    obtain ⟨next, hnext, hcut⟩ := reaches_below hkey hopens hbelow (h.opening _ _)
    obtain ⟨more, rfl⟩ := List.head?_eq_some_iff.mp hopens.head?_eq
    obtain ⟨last, hlast, hvalue⟩ := h.reaches (by omega) hnext hn htail
    refine ⟨last, hlast, ?_⟩
    simpa using hcut.trans hvalue

/-- A key with the items of a list below it is a block, though they stand no further in. -/
theorem Block.field (h : Block .blockSequence ls ts) (hkey : IsKey key) :
    Block .blockMapping ((key ++ [':']) :: ls) (keyTokens key ++ ts) where
  ne_nil := by simp
  opening m rest := by
    rw [layout_cons h.ne_nil]
    simp only [List.append_assoc]
    exact hkey.isPlain.resumes
  reaches {m n columns columns' tokens tokens' cur tail} hopens hat hn htail := by
    have hbelow : cur.At m (key ++ [':'] ++ '\n' :: (List.replicate (m + 0) ' ' ++
        (layout m ls ++ (List.replicate n ' ' ++ tail)))) := by
      rw [layout_cons h.ne_nil] at hat
      simpa using hat
    obtain ⟨next, hnext, hcut⟩ := reaches_below hkey hopens hbelow (h.opening m _)
    obtain ⟨last, hlast, hvalue⟩ := h.reaches (.already hopens.head?_eq) hnext hn htail
    refine ⟨last, hlast, ?_⟩
    simpa using hcut.trans hvalue

/-! ## Whole texts -/

/-- A text that is a block is cut into the tokens of a collection. -/
theorem Block.tokens?_eq (h : Block t ls ts) :
    tokens? (ls.flatMap (· ++ ['\n'])) = some (t :: ts ++ [.blockEnd]) := by
  let start : Cursor := ⟨.start, layout 0 ls⟩
  have hat : start.At 0 (layout 0 ls ++ (List.replicate 0 ' ' ++ [])) := ⟨rfl, by simp [start]⟩
  have hopens : Stream.Opens t 0 [] [] [0] [t] := .anew (by simp)
  obtain ⟨next, ⟨-, hend⟩, hreaches⟩ :=
    h.reaches hopens hat (Nat.le_refl 0) (by simp [Resumes])
  have hopening : Resumes (layout 0 ls) := by simpa using h.opening 0 []
  have hdrop : (Stream.ready true [] [] start).dropStale? = some (Stream.ready true [] [] start) :=
    rfl
  have hfirst : (Stream.ofText (layout 0 ls)).settle? = some (Stream.ready true [] [] start) :=
    Stream.settle?_of_dropStale? (Stream.settled_of_resumes hopening) hdrop
  have hfuel : start.rest.length < (layout 0 ls).length + 1 := Nat.lt_succ_self _
  rw [flatMap_eq_layout, tokens?, Stream.run?_of_reaches hreaches hend hfirst hfuel]
  have hopen : (Stream.ready true [0] (ts.reverse ++ [t]) next).closeWhile (0 < ·) =
      Stream.ready true [0] (ts.reverse ++ [t]) next := Stream.closeWhile_pending (by simp)
  rw [hopen, Stream.closeWhile_cons rfl]
  simp [Stream.closeWhile, Stream.ready, Stream.giveUp?]

end AccessPolicy.Yaml
