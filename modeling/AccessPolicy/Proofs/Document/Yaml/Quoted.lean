import AccessPolicy.Document.Yaml.Quoted
import AccessPolicy.Proofs.Document.Yaml.Place
import AccessPolicy.Proofs.Text.Hex

/-!
# Quoted scalars are read back

A string without line ends that is written between single quotes, and any string that is written
between double quotes, is read back as it was (`Yaml.quoted?_singleQuoted`,
`Yaml.quoted?_doubleQuoted`). Blanks are read as a gap and count as they are, and no document marker
can be met, since everything stands on the line of the opening quote.
-/

namespace AccessPolicy.Yaml

variable {gap cs after : List Char} {g : Gap} {p : Place} {c : Char}

theorem Gap.add_of_isBlank (h : isBlank c = true) :
    (Gap.blanks gap).add c = .blanks (gap ++ [c]) := by
  rw [add, if_neg (by simp [isBreak_of_isBlank h])]

/-! ## Single quotes -/

/-- A character as it is written between single quotes. -/
def double (c : Char) : List Char :=
  if c = '\'' then ['\'', '\''] else [c]

theorem singleQuoted_eq (cs : List Char) :
    singleQuoted cs = '\'' :: cs.flatMap double ++ ['\''] := rfl

theorem mem_double {d : Char} (h : d ∈ double c) : d = c ∨ d = '\'' := by
  unfold double at h
  split at h
  · simpa using Or.inr h
  · exact .inl (List.mem_singleton.mp h)

theorem single?_close (h : after.head? ≠ some '\'') :
    single? g p ('\'' :: after) = some (g.text, ⟨p.step '\'', after⟩) := by
  cases after with
  | nil => rfl
  | cons d ds =>
    have hd : d ≠ '\'' := fun hd => h (congrArg some hd)
    rw [single?]
    · rfl
    · exact fun _ _ hmore => hd (List.cons.inj hmore).1

theorem single?_quote : single? g p ('\'' :: '\'' :: cs) =
    (single? .empty ((p.step '\'').step '\'') cs).map fun (text, after) =>
      (g.text ++ '\'' :: text, after) := by
  rw [single?]

theorem single?_cons (hc : c ≠ '\'') : single? g p (c :: cs) =
    if isSpace c then single? (g.add c) (p.step c) cs
    else if Cursor.isAnyMarker ⟨p, c :: cs⟩ then none
    else (single? .empty (p.step c) cs).map fun (text, after) => (g.text ++ c :: text, after) := by
  rw [single?]
  · rw [if_neg hc]
  · exact fun _ h => absurd h hc

theorem column_step_ne_zero (h : isBreak c = false) : (p.step c).column ≠ 0 := by
  rw [Place.step_of_not_isBreak h]
  exact Nat.succ_ne_zero _

theorem single?_append (hcs : ∀ c ∈ cs, isBreak c = false) (hafter : after.head? ≠ some '\'')
    (hp : p.column ≠ 0) :
    single? (.blanks gap) p (cs.flatMap double ++ '\'' :: after) =
      some (gap ++ cs, ⟨p.past (cs.flatMap double ++ ['\'']), after⟩) := by
  induction cs generalizing gap p with
  | nil => rw [List.append_nil]; exact single?_close hafter
  | cons c cs ih =>
    obtain ⟨hc, hmore⟩ := List.forall_mem_cons.mp hcs
    rw [List.flatMap_cons, List.append_assoc]
    by_cases hquote : c = '\''
    · subst hquote
      have hpair : ∀ rest, double '\'' ++ rest = '\'' :: '\'' :: rest := fun _ => rfl
      simp only [hpair, single?_quote, Gap.empty, ih hmore (column_step_ne_zero hc)]
      simp [Gap.text]
    · have hsingle : ∀ rest, double c ++ rest = c :: rest := fun _ => by simp [double, hquote]
      simp only [hsingle, single?_cons hquote]
      by_cases hblank : isBlank c = true
      · rw [if_pos (by simp [isSpace, hblank]), Gap.add_of_isBlank hblank,
          ih hmore (column_step_ne_zero hc)]
        simp
      · rw [if_neg (by simp [isSpace, hblank, hc]), Cursor.isAnyMarker_of_column hp,
          if_neg (by simp), Gap.empty, ih hmore (column_step_ne_zero hc)]
        simp [Gap.text]

/-- What stands between single quotes is read back. -/
theorem quoted?_singleQuoted {cur : Cursor} (hrest : cur.rest = singleQuoted cs ++ after)
    (hcs : ∀ c ∈ cs, isBreak c = false) (hafter : after.head? ≠ some '\'') :
    quoted? cur = some (cs, ⟨cur.place.past (singleQuoted cs), after⟩) := by
  have htext : singleQuoted cs ++ after = '\'' :: (cs.flatMap double ++ '\'' :: after) := by
    simp [singleQuoted_eq]
  rw [quoted?, hrest, htext]
  exact single?_append hcs hafter (column_step_ne_zero (by decide))

/-! ## Double quotes -/

theorem escape?_hexDigits {d : Char} {width : Nat} (hd : simpleEscape? d = none)
    (hwidth : escapeDigits d = width) (hne : width ≠ 0) (hc : c.toNat < Nat.pow 16 width)
    (rest : List Char) :
    escape? d (hexDigits 'A' width c.toNat ++ rest) = some (c, width) := by
  have htake : (hexDigits 'A' width c.toNat ++ rest).take width = hexDigits 'A' width c.toNat := by
    rw [List.take_left' (length_hexDigits 'A' width c.toNat)]
  have hlength : ¬(hexDigits 'A' width c.toNat ++ rest).length < width := by simp
  have hvalue : hexNumber? (hexDigits 'A' width c.toNat) = some c.toNat := by
    rw [hexNumber?_hexDigits (.inr rfl), Nat.mod_eq_of_lt hc]
  have hvalid : c.toNat.isValidChar := c.valid
  rw [escape?, hd]
  simp only [hwidth, hne, hlength, htake, hvalue, if_pos hvalid, Char.ofNat_toNat]
  rfl

/-- A character that is not printed is a line end or one of the first 256, or one of the last of its
plane. -/
theorem toNat_lt_of_not_isPrinted (h : isPrinted c = false) (hbreak : isBreak c = false)
    (hlarge : ¬c.toNat < 0x100) : c.toNat < 0x10000 := by
  simp only [isPrinted, Bool.not_eq_false', Bool.or_eq_true, Bool.and_eq_true, decide_eq_true_eq,
    hbreak] at h
  rcases h with ((((h | h) | h) | rfl) | rfl) | rfl
  · omega
  · omega
  · simp at h
  all_goals decide

theorem isPrinted_of_mem_hexDigits {width n : Nat} :
    ∀ d ∈ hexDigits 'A' width n, isPrinted d = true := by
  have hdigit : ∀ n < 16, isPrinted (hexDigit 'A' n) = true := by decide
  induction width generalizing n with
  | zero => exact nofun
  | succ width ih =>
    exact List.forall_mem_append.mpr
      ⟨ih, List.forall_mem_singleton.mpr (hdigit _ (Nat.mod_lt _ (by omega)))⟩

/-- A character is escaped in a way that the reader undoes, or it is one that the reader takes as it
is or as a blank. -/
theorem escape_cases (c : Char) :
    (∃ d w, escape c = '\\' :: d :: w ∧ (∀ e ∈ d :: w, isPrinted e = true) ∧
      ∀ rest, escape? d (w ++ rest) = some (c, w.length)) ∨
      escape c = [c] ∧ c ≠ '"' ∧ c ≠ '\\' ∧ isPrinted c = true := by
  by_cases hnamed : c ∈ ['\x00', '\x07', '\x08', '\t', '\n', '\x0b', '\x0c', '\r', '\x1b', '"',
      '\\', '\x85', '\u2028', '\u2029']
  · simp only [List.mem_cons, List.not_mem_nil, or_false] at hnamed
    rcases hnamed with rfl | rfl | rfl | rfl | rfl | rfl | rfl | rfl | rfl | rfl | rfl | rfl |
      rfl | rfl
    all_goals exact .inl ⟨_, [], rfl, List.all_eq_true.mp rfl, fun _ => rfl⟩
  · simp only [List.mem_cons, List.not_mem_nil, or_false, not_or] at hnamed
    obtain ⟨hnul, hbell, hback, htab, hline, hvertical, hfeed, hreturn, hescape, hquote, hslash,
      hnext, hls, hps⟩ := hnamed
    have hbreak : isBreak c = false := by simp [isBreak, hline, hreturn, hnext, hls, hps]
    simp only [escape, hnul, hbell, hback, htab, hline, hvertical, hfeed, hreturn, hescape, hquote,
      hslash, hnext, hls, hps, if_false]
    by_cases hprinted : isPrinted c = true
    · exact .inr ⟨if_pos hprinted, hquote, hslash, hprinted⟩
    · rw [if_neg hprinted]
      by_cases hlow : c.toNat < 0x100
      · rw [if_pos hlow]
        refine .inl ⟨'x', _, rfl,
          List.forall_mem_cons.mpr ⟨by decide, isPrinted_of_mem_hexDigits⟩, fun rest => ?_⟩
        rw [length_hexDigits]
        exact escape?_hexDigits rfl rfl (by decide) hlow rest
      · have hplane := toNat_lt_of_not_isPrinted (by simpa using hprinted) hbreak hlow
        rw [if_neg hlow]
        refine .inl ⟨'u', _, rfl,
          List.forall_mem_cons.mpr ⟨by decide, isPrinted_of_mem_hexDigits⟩, fun rest => ?_⟩
        rw [length_hexDigits]
        exact escape?_hexDigits rfl rfl (by decide) hplane rest

theorem isPrinted_of_mem_escape {c d : Char} (h : d ∈ escape c) : isPrinted d = true := by
  obtain ⟨e, w, hescape, hprinted, -⟩ | ⟨hescape, -, -, hprinted⟩ := escape_cases c
  · rw [hescape] at h
    exact List.forall_mem_cons.mpr ⟨by decide, hprinted⟩ d h
  · rw [hescape] at h
    rwa [List.mem_singleton.mp h]

theorem double?_quote : double? g p ('"' :: after) = some (g.text, ⟨p.step '"', after⟩) := by
  rw [double?.eq_def]
  rfl

theorem double?_escape {d : Char} {w rest : List Char} (hp : p.column ≠ 0)
    (hbreak : isBreak d = false) (hread : escape? d (w ++ rest) = some (c, w.length)) :
    double? g p ('\\' :: d :: (w ++ rest)) =
      (double? .empty (p.past ('\\' :: d :: w)) rest).map fun (text, after) =>
        (g.text ++ c :: text, after) := by
  have hspace : isSpace '\\' = false := rfl
  have hmarker : Cursor.isAnyMarker ⟨p, '\\' :: d :: (w ++ rest)⟩ = false :=
    Cursor.isAnyMarker_of_column hp
  rw [double?.eq_def]
  simp only [if_neg (by decide : '\\' ≠ '"'), hspace, hmarker, hbreak, hread, List.take_left,
    List.drop_left]
  rfl

theorem double?_cons (hquote : c ≠ '"') (hslash : c ≠ '\\') (hp : p.column ≠ 0) :
    double? g p (c :: cs) =
      if isSpace c then double? (g.add c) (p.step c) cs
      else
        (double? .empty (p.step c) cs).map fun (text, after) => (g.text ++ c :: text, after) := by
  have hmarker : Cursor.isAnyMarker ⟨p, c :: cs⟩ = false := Cursor.isAnyMarker_of_column hp
  rw [double?.eq_def]
  simp only [if_neg hquote, if_neg hslash, hmarker]
  rfl

theorem double?_append (hp : p.column ≠ 0) :
    double? (.blanks gap) p (cs.flatMap escape ++ '"' :: after) =
      some (gap ++ cs, ⟨p.past (cs.flatMap escape ++ ['"']), after⟩) := by
  induction cs generalizing gap p with
  | nil => rw [List.append_nil]; exact double?_quote
  | cons c cs ih =>
    rw [List.flatMap_cons, List.append_assoc, List.append_assoc]
    obtain ⟨d, w, hescape, hprinted, hread⟩ | ⟨hescape, hquote, hslash, hprinted⟩ := escape_cases c
    · have hbreak : ∀ e ∈ d :: w, isBreak e = false := fun e he =>
        not_isBreak_of_isPrinted (hprinted e he)
      have hcolumn : (p.past ('\\' :: d :: w)).column ≠ 0 := by
        rw [Place.column_past (List.forall_mem_cons.mpr ⟨by decide, hbreak⟩), List.length_cons]
        omega
      rw [hescape]
      simp only [List.cons_append, double?_escape hp (hbreak d List.mem_cons_self) (hread _),
        Gap.empty, ih hcolumn]
      simp [Gap.text, Place.past_append]
    · have hcolumn := column_step_ne_zero (p := p) (not_isBreak_of_isPrinted hprinted)
      rw [hescape]
      simp only [List.singleton_append, double?_cons hquote hslash hp]
      by_cases hblank : isBlank c = true
      · rw [if_pos (by simp [isSpace, hblank]), Gap.add_of_isBlank hblank, ih hcolumn]
        simp
      · rw [if_neg (by simp [isSpace, hblank, not_isBreak_of_isPrinted hprinted]), Gap.empty,
          ih hcolumn]
        simp [Gap.text]

/-- What stands between double quotes is read back. -/
theorem quoted?_doubleQuoted {cur : Cursor} (hrest : cur.rest = doubleQuoted cs ++ after) :
    quoted? cur = some (cs, ⟨cur.place.past (doubleQuoted cs), after⟩) := by
  have htext : doubleQuoted cs ++ after = '"' :: (cs.flatMap escape ++ '"' :: after) := by
    simp [doubleQuoted]
  rw [quoted?, hrest, htext]
  exact double?_append (column_step_ne_zero (by decide))

end AccessPolicy.Yaml
