import AccessPolicy.Document.Yaml.Writer
import AccessPolicy.Proofs.Document.Json.Numbers

/-!
# What written scalars mean

The digits of an integer of 64 bits mean that integer (`Yaml.resolve?_repr`), and a spelling that is
written plain means the string of its characters (`Yaml.resolve?_of_readsAsString`). A spelling that
means anything else is made of graphic characters of ASCII (`Yaml.isGraphic_of_not_readsAsString`),
so that single quotes are enough to write it as a string.
-/

namespace AccessPolicy.Yaml

/-! ## Spellings of no string are graphic -/

/-- The characters of ASCII that are not blank and have a picture. -/
def isGraphic (c : Char) : Bool :=
  0x21 ≤ c.toNat && c.toNat ≤ 0x7E

theorem isPrinted_of_isGraphic {c : Char} (h : isGraphic c = true) : isPrinted c = true := by
  have hother : ∀ d : Char, isGraphic d = false → c ≠ d := fun d hd hcd => by simp [hcd, hd] at h
  simp only [isGraphic, Bool.and_eq_true, decide_eq_true_eq] at h
  have hlow : ¬ c.toNat < 0x20 := by omega
  have hhigh : ¬ 0x7F ≤ c.toNat := by omega
  simp only [isPrinted, isBreak, hlow, hhigh, hother _ (rfl : isGraphic '\n' = false),
    hother _ (rfl : isGraphic '\r' = false), hother _ (rfl : isGraphic '\x85' = false),
    hother _ (rfl : isGraphic '\u2028' = false), hother _ (rfl : isGraphic '\u2029' = false),
    hother _ (rfl : isGraphic '\ufeff' = false), hother _ (rfl : isGraphic '\ufffe' = false),
    hother _ (rfl : isGraphic '\uffff' = false)]
  rfl

theorem isGraphic_of_isDigit {c : Char} (h : c.isDigit = true) : isGraphic c = true := by
  obtain ⟨hlow, hhigh⟩ := toNat_of_isDigit h
  simp only [isGraphic, Bool.and_eq_true, decide_eq_true_eq]
  omega

theorem isGraphic_of_hexValue? {c : Char} {n : Nat} (h : hexValue? c = some n) :
    isGraphic c = true := by
  unfold hexValue? at h
  split at h
  · next hdigit => exact isGraphic_of_isDigit hdigit
  split at h
  · next hletter =>
    obtain ⟨hlow, hhigh⟩ : 0x61 ≤ c.toNat ∧ c.toNat ≤ 0x66 := hletter
    simp only [isGraphic, Bool.and_eq_true, decide_eq_true_eq]
    omega
  split at h
  · next hletter =>
    obtain ⟨hlow, hhigh⟩ : 0x41 ≤ c.toNat ∧ c.toNat ≤ 0x46 := hletter
    simp only [isGraphic, Bool.and_eq_true, decide_eq_true_eq]
    omega
  · simp at h

/-- The spellings of null and of the truth values. -/
def words : List (List Char) :=
  [[], ['~'], "null".toList, "Null".toList, "NULL".toList, "true".toList, "True".toList,
    "TRUE".toList, "false".toList, "False".toList, "FALSE".toList]

theorem mem_words_of_isNull {cs : List Char} (h : isNull cs = true) : cs ∈ words := by
  simp only [isNull, Bool.or_eq_true, decide_eq_true_eq] at h
  rcases h with (((rfl | rfl) | rfl) | rfl) | rfl <;> decide

theorem mem_words_of_bool? {cs : List Char} {b : Bool} (h : bool? cs = some b) : cs ∈ words := by
  unfold bool? at h
  split at h
  · next hword =>
    simp only [Bool.or_eq_true, decide_eq_true_eq] at hword
    rcases hword with (rfl | rfl) | rfl <;> decide
  split at h
  · next hword =>
    simp only [Bool.or_eq_true, decide_eq_true_eq] at hword
    rcases hword with (rfl | rfl) | rfl <;> decide
  · simp at h

theorem isGraphic_of_mem_words (w : List Char) (hw : w ∈ words) : ∀ c ∈ w, isGraphic c = true := by
  have hall : words.all (·.all isGraphic) = true := by decide
  exact List.all_eq_true.mp (List.all_eq_true.mp hall w hw)

theorem isGraphic_of_splitSign {cs : List Char} (h : ∀ c ∈ (splitSign cs).2, isGraphic c = true) :
    ∀ c ∈ cs, isGraphic c = true := by
  unfold splitSign at h
  split at h
  · exact List.forall_mem_cons.mpr ⟨by decide, h⟩
  · exact List.forall_mem_cons.mpr ⟨by decide, h⟩
  · exact h

/-- The digits of a number in any base are those of base sixteen. -/
theorem isGraphic_of_radixNumber? {base n : Nat} {cs : List Char}
    (h : radixNumber? base cs = some n) : ∀ c ∈ cs, isGraphic c = true := by
  have hfold : ∀ (ds : List Char) (k? : Option Nat),
      ds.foldl (fun n? c => n?.bind fun n => (hexValue? c).bind fun v =>
        if v < base then some (n * base + v) else none) k? = some n →
        k?.isSome ∧ ∀ d ∈ ds, isGraphic d = true := by
    intro ds
    induction ds with
    | nil => exact fun k? hk => ⟨by rw [show k? = some n from hk]; rfl, nofun⟩
    | cons d ds ih =>
      intro k? hk
      obtain ⟨hsome, hmore⟩ := ih _ hk
      obtain ⟨m, hm⟩ := Option.isSome_iff_exists.mp hsome
      obtain ⟨k, rfl, hvalue⟩ := Option.bind_eq_some_iff.mp hm
      obtain ⟨v, hv, -⟩ := Option.bind_eq_some_iff.mp hvalue
      exact ⟨rfl, List.forall_mem_cons.mpr ⟨isGraphic_of_hexValue? hv, hmore⟩⟩
  unfold radixNumber? at h
  split at h
  · simp at h
  · exact (hfold cs _ h).2

theorem isGraphic_of_magnitude? {cs : List Char} {n : Nat} (h : magnitude? cs = some n) :
    ∀ c ∈ cs, isGraphic c = true := by
  unfold magnitude? at h
  split at h
  case h_1 | h_2 | h_3 =>
    exact List.forall_mem_cons.mpr ⟨by decide,
      List.forall_mem_cons.mpr ⟨by decide, isGraphic_of_radixNumber? h⟩⟩
  case h_4 => exact isGraphic_of_radixNumber? h

theorem isGraphic_of_integer? {cs : List Char} {n : Int} (h : integer? cs = some n) :
    ∀ c ∈ cs, isGraphic c = true := by
  refine isGraphic_of_splitSign ?_
  unfold integer? at h
  dsimp only at h
  split at h
  · simp at h
  split at h
  · simp at h
  · next hmagnitude => exact isGraphic_of_magnitude? hmagnitude

theorem isGraphic_of_isZeroPadded {cs : List Char} (h : isZeroPadded cs = true) :
    ∀ c ∈ cs, isGraphic c = true := by
  refine isGraphic_of_splitSign ?_
  unfold isZeroPadded at h
  split at h
  · next d ds hsplit =>
    rw [hsplit]
    have hdigits := List.all_eq_true.mp h
    exact List.forall_mem_cons.mpr ⟨by decide, fun c hc => isGraphic_of_isDigit (hdigits c hc)⟩
  · simp at h

/-! ## Decimal numbers -/

theorem isGraphic_of_digits? {cs ds more : List Char} (h : Numeral.digits? cs = some (ds, more))
    (hmore : ∀ c ∈ more, isGraphic c = true) : ∀ c ∈ cs, isGraphic c = true := by
  unfold Numeral.digits? at h
  split at h
  · simp at h
  · obtain ⟨rfl, rfl⟩ := Prod.mk.inj (Option.some.inj h)
    rw [← List.takeWhile_append_dropWhile (p := Char.isDigit) (l := cs)]
    exact List.forall_mem_append.mpr
      ⟨fun c hc => isGraphic_of_isDigit (List.mem_takeWhile_imp hc), hmore⟩

theorem isGraphic_of_exponent? {cs : List Char} {e : Int} (h : Numeral.exponent? cs = some e) :
    ∀ c ∈ cs, isGraphic c = true := by
  have hbody : ∀ {rest : List Char} {f : List Char × List Char → Option Int},
      (Numeral.digits? rest).bind f = some e → (∀ ds more, f (ds, more) = some e → more = []) →
        ∀ c ∈ rest, isGraphic c = true := by
    intro rest f hrest hf
    obtain ⟨⟨ds, more⟩, hdigits, hmore⟩ := Option.bind_eq_some_iff.mp hrest
    exact isGraphic_of_digits? hdigits (by simp [hf ds more hmore])
  unfold Numeral.exponent? at h
  split at h
  case h_1 | h_2 =>
    exact List.forall_mem_cons.mpr ⟨by decide, hbody h fun ds more hmore => by simp_all⟩
  case h_3 => exact hbody h fun ds more hmore => by simp_all

theorem isGraphic_of_tail? {whole cs : List Char} {fraction : Option (List Char)} {n : Numeral}
    (h : Numeral.tail? whole fraction cs = some n) : ∀ c ∈ cs, isGraphic c = true := by
  unfold Numeral.tail? at h
  split at h
  · simp
  split at h
  · next c rest hmark =>
    obtain ⟨e, hexponent, -⟩ := Option.map_eq_some_iff.mp h
    simp only [Bool.or_eq_true, decide_eq_true_eq] at hmark
    refine List.forall_mem_cons.mpr ⟨?_, isGraphic_of_exponent? hexponent⟩
    rcases hmark with rfl | rfl <;> decide
  · simp at h

theorem isGraphic_of_read? {cs : List Char} {n : Numeral} (h : Numeral.read? cs = some n) :
    ∀ c ∈ cs, isGraphic c = true := by
  have hdigits : ∀ ds : List Char, (∀ c ∈ ds.dropWhile Char.isDigit, isGraphic c = true) →
      ∀ c ∈ ds, isGraphic c = true := by
    intro ds hmore
    rw [← List.takeWhile_append_dropWhile (p := Char.isDigit) (l := ds)]
    exact List.forall_mem_append.mpr
      ⟨fun c hc => isGraphic_of_isDigit (List.mem_takeWhile_imp hc), hmore⟩
  refine hdigits cs ?_
  unfold Numeral.read? at h
  dsimp only at h
  split at h
  · next rest hdot =>
    rw [hdot]
    exact List.forall_mem_cons.mpr ⟨by decide, hdigits rest (isGraphic_of_tail? h)⟩
  · exact isGraphic_of_tail? h

theorem isGraphic_of_floatDocument? {cs : List Char} {d : Document}
    (h : floatDocument? cs = some d) : ∀ c ∈ cs, isGraphic c = true := by
  unfold floatDocument? at h
  split at h
  · next hword =>
    simp only [isNonFinite, Bool.or_eq_true, decide_eq_true_eq] at hword
    rcases hword with ((((hword | hword) | hword) | rfl) | rfl) | rfl
    · exact isGraphic_of_splitSign (by rw [hword]; exact List.all_eq_true.mp rfl)
    · exact isGraphic_of_splitSign (by rw [hword]; exact List.all_eq_true.mp rfl)
    · exact isGraphic_of_splitSign (by rw [hword]; exact List.all_eq_true.mp rfl)
    all_goals exact List.all_eq_true.mp rfl
  split at h
  · next hfloat =>
    refine isGraphic_of_splitSign ?_
    unfold isFloat at hfloat
    split at hfloat
    · next hread => exact isGraphic_of_read? hread
    · simp at hfloat
  · simp at h

/-! ## Strings -/

theorem floatDocument?_ne_string {cs : List Char} {s : String} :
    floatDocument? cs ≠ some (.string s) := by
  unfold floatDocument?
  split
  · simp
  split <;> simp

/-- A spelling that is read as a string is read as the string of its characters. -/
theorem resolve?_of_readsAsString {cs : List Char} (h : readsAsString cs = true) :
    resolve? cs = some (.string (String.ofList cs)) := by
  unfold readsAsString at h
  split at h
  · next s hs =>
    rw [hs]
    unfold resolve? at hs
    split at hs
    · simp at hs
    split at hs
    · simp at hs
    · next n _ _ => simp [integerDocument?] at hs
    split at hs
    · exact hs.symm
    · rcases Option.or_eq_some_iff.mp hs with hfloat | ⟨-, hs⟩
      · exact absurd hfloat floatDocument?_ne_string
      · exact hs.symm
  · simp at h

/-- A spelling that is not read as a string is graphic. -/
theorem isGraphic_of_not_readsAsString {cs : List Char} (h : readsAsString cs = false) :
    ∀ c ∈ cs, isGraphic c = true := by
  by_cases hzero : isZeroPadded cs = true
  · exact isGraphic_of_isZeroPadded hzero
  have hother : ∀ s, resolve? cs ≠ some (.string s) := by
    intro s hs
    simp [readsAsString, hs, hzero] at h
  unfold resolve? at hother
  split at hother
  · next hnull => exact isGraphic_of_mem_words cs (mem_words_of_isNull hnull)
  split at hother
  · next hbool => exact isGraphic_of_mem_words cs (mem_words_of_bool? hbool)
  · next hinteger => exact isGraphic_of_integer? hinteger
  · cases hfloat : floatDocument? cs with
    | some d => exact isGraphic_of_floatDocument? hfloat
    | none => exact absurd (by rw [hfloat]; rfl) (hother (String.ofList cs))

/-! ## Integers -/

theorem hexValue?_of_isDigit {c : Char} (h : c.isDigit = true) :
    hexValue? c = some (c.toNat - '0'.toNat) := by
  rw [hexValue?, if_pos h]

theorem radixNumber?_of_isDigit {cs : List Char} (h : ∀ c ∈ cs, c.isDigit = true) (hne : cs ≠ []) :
    radixNumber? 10 cs = some (Nat.ofDigitChars 10 cs 0) := by
  have hfold : ∀ (ds : List Char) (n : Nat), (∀ d ∈ ds, d.isDigit = true) →
      ds.foldl (fun n? c => n?.bind fun n => (hexValue? c).bind fun v =>
        if v < 10 then some (n * 10 + v) else none) (some n) =
        some (Nat.ofDigitChars 10 ds n) := by
    intro ds
    induction ds with
    | nil => exact fun n _ => rfl
    | cons d ds ih =>
      intro n hds
      obtain ⟨hd, hds⟩ := List.forall_mem_cons.mp hds
      have hvalue : d.toNat - '0'.toNat < 10 := by
        have hzero : '0'.toNat = 0x30 := rfl
        have hrange := toNat_of_isDigit hd
        omega
      rw [Nat.ofDigitChars_cons, Nat.mul_comm, ← ih _ hds, List.foldl_cons, Option.bind_some,
        hexValue?_of_isDigit hd, Option.bind_some, if_pos hvalue]
  rw [radixNumber?, if_neg hne, hfold cs 0 h]

theorem magnitude?_of_isDigit {cs : List Char} (h : ∀ c ∈ cs, c.isDigit = true) (hne : cs ≠ []) :
    magnitude? cs = some (Nat.ofDigitChars 10 cs 0) := by
  unfold magnitude?
  split
  case h_1 | h_2 | h_3 => simp at h
  case h_4 => exact radixNumber?_of_isDigit h hne

theorem splitSign_of_isDigit {cs : List Char} (h : ∀ c ∈ cs, c.isDigit = true) :
    splitSign cs = (false, cs) := by
  unfold splitSign
  split
  case h_1 | h_2 => simp at h
  case h_3 => rfl

theorem not_isZeroPadded_toDigits {cs : List Char} {n : Nat}
    (h : (splitSign cs).2 = Nat.toDigits 10 n) : isZeroPadded cs = false := by
  unfold isZeroPadded
  rw [h]
  split
  · next d ds hdigits =>
    by_cases hn : n = 0
    · subst hn
      exact absurd hdigits (by simp)
    · exact absurd (by rw [hdigits]; rfl) (head?_toDigits_ne hn)
  · rfl

theorem integer?_repr {k : Int} (hlow : -(maxInt64 + 1) ≤ k) (hhigh : k ≤ maxUInt64) :
    integer? k.repr.toList = some k := by
  have hdigits := isDigit_of_mem_toDigits (n := k.natAbs)
  have hmagnitude : magnitude? (Nat.toDigits 10 k.natAbs) = some k.natAbs := by
    rw [magnitude?_of_isDigit hdigits Nat.toDigits_ne_nil, Nat.ofDigitChars_ten_toDigits]
  have hlow128 : maxInt64 ≤ maxInt128 := by decide
  have hhigh128 : maxUInt64 ≤ maxUInt128 := by decide
  rw [Json.toList_repr]
  split
  · next hneg =>
    have hsplit : splitSign ('-' :: Nat.toDigits 10 k.natAbs) = (true, Nat.toDigits 10 k.natAbs) :=
      rfl
    have habs : -(k.natAbs : Int) = k := by omega
    rw [List.singleton_append, integer?, not_isZeroPadded_toDigits (by rw [hsplit])]
    simp only [hsplit, hmagnitude, habs, if_pos (show k.natAbs ≤ maxInt128 + 1 by omega)]
    rfl
  · next hneg =>
    have hsplit := splitSign_of_isDigit hdigits
    have habs : (k.natAbs : Int) = k := by omega
    rw [List.nil_append, integer?, not_isZeroPadded_toDigits (by rw [hsplit])]
    simp only [hsplit, hmagnitude, habs, if_pos (show k.natAbs ≤ maxUInt128 by omega)]
    rfl

theorem integer?_of_mem_words : ∀ w ∈ words, integer? w = none := by
  decide

/-- The digits of an integer that fits 64 bits mean that integer. -/
theorem resolve?_repr {k : Int} (hlow : -(maxInt64 + 1) ≤ k) (hhigh : k ≤ maxUInt64) :
    resolve? k.repr.toList = some (.int k) := by
  have hinteger := integer?_repr hlow hhigh
  have hword : k.repr.toList ∉ words := fun hword => by
    simp [integer?_of_mem_words _ hword] at hinteger
  have hnull : isNull k.repr.toList = false :=
    Bool.eq_false_iff.mpr fun hnull => hword (mem_words_of_isNull hnull)
  have hbool : bool? k.repr.toList = none :=
    Option.eq_none_iff_forall_ne_some.mpr fun b hb => hword (mem_words_of_bool? hb)
  have hdocument : integerDocument? k = some (.int k) := if_pos ⟨hlow, hhigh⟩
  rw [resolve?, hnull, hbool, hinteger]
  exact hdocument

end AccessPolicy.Yaml
