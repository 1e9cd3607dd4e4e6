import AccessPolicy.Proofs.Program.Fault
import AccessPolicy.Proofs.Program.RoundTrip
import Mathlib.Data.Set.List

/-!
# What decoders give

A decoder either gives what the gist of its document encodes, and the document has no faults, or it
gives an error that is true of the whole document (`Program.yields_decode`). It is shown of the
readers of single fields first, and of every decoder from the decoders and readers it calls.
-/

namespace AccessPolicy

open DecodeError (Path Step)
open Document (Located Blamed Faulty)

/-! ## Outcomes -/

section Yields

variable {ε α β : Type} {good : α → Prop} {good' : β → Prop} {bad : ε → Prop}

/-- The outcome is a value that is `good` or an error that is `bad`. -/
def Yields (x : Except ε α) (good : α → Prop) (bad : ε → Prop) : Prop :=
  match x with
  | .ok a => good a
  | .error e => bad e

theorem Yields.ok {a : α} (h : good a) : Yields (.ok a : Except ε α) good bad := h

theorem Yields.error {e : ε} (h : bad e) : Yields (.error e : Except ε α) good bad := h

theorem Yields.bind {x : Except ε α} {f : α → Except ε β} (h : Yields x good bad)
    (hf : ∀ a, good a → Yields (f a) good' bad) : Yields (x >>= f) good' bad := by
  cases x with
  | error e => exact h
  | ok a => exact hf a h

theorem Yields.map {x : Except ε α} {f : α → β} (h : Yields x good bad)
    (hf : ∀ a, good a → good' (f a)) : Yields (f <$> x) good' bad := by
  cases x with
  | error e => exact h
  | ok a => exact hf a h

/-- What holds of every value that the outcome may be holds of a good one. -/
theorem Yields.and_eq_ok {x : Except ε α} {p : α → Prop} (h : Yields x good bad)
    (hp : ∀ a, x = .ok a → p a) : Yields x (fun a => p a ∧ good a) bad := by
  cases x with
  | error e => exact h
  | ok a => exact ⟨hp a rfl, h⟩

theorem Yields.of_eq_ok {x : Except ε α} {a : α} (h : Yields x good bad) (hx : x = .ok a) :
    good a := by
  rwa [hx] at h

theorem Yields.of_eq_error {x : Except ε α} {e : ε} (h : Yields x good bad) (hx : x = .error e) :
    bad e := by
  rwa [hx] at h

/-- Items that are decoded one by one, each with its index, give one value each. -/
theorem yields_mapM_zipIdx {decode : Document × Nat → Except ε α} {rel : Document → α → Prop}
    {items : List Document} (n : Nat)
    (h : ∀ i d, items[i]? = some d → Yields (decode (d, n + i)) (rel d) bad) :
    Yields ((items.zipIdx n).mapM decode) (List.Forall₂ rel items) bad := by
  induction items generalizing n with
  | nil => exact .ok .nil
  | cons d ds ih =>
    rw [List.zipIdx_cons, List.mapM_cons]
    refine (h 0 d rfl).bind fun a ha => ?_
    refine (ih (n + 1) fun i c hc => ?_).bind fun as has => .ok (.cons ha has)
    rw [Nat.add_right_comm]
    exact h (i + 1) c hc

end Yields

/-! ## Fields -/

namespace Document

theorem nodeType?_of_get? {d : Document} {s : String} (h : d.get? "type" = some (string s)) :
    d.nodeType? = NodeType.ofName? s := by
  rw [nodeType?, h]

variable {v d : Document} {path : Path} {place : Place} {key : String}

section Fields

variable (h : Located v path place d)

include h

theorem yields_child (hneeds : (∃ sort, Needs place d key sort) ∨ NeedsPart place d key) :
    Yields (d.child path key) (fun _ => True) (Blamed v) := by
  -- An action list has no fields that are asked for, so this is no such list.
  have hnode : place ≠ .actions := by
    rintro rfl
    obtain ⟨sort, hmem | ⟨t, hd, -⟩⟩ | ⟨t, step, inner, hd, -⟩ := hneeds
    · cases hmem
    · cases hd.mem_types
    · cases hd.mem_types
  unfold child
  split
  · trivial
  · next hattach =>
    have hnone : d.get? key = none := Option.attach_eq_none_iff.mp hattach
    split
    · next fields _ => exact .error ⟨place, _, h, ⟨fields, rfl⟩, hneeds, hnone⟩
    · next hother => exact .error ⟨place, d, h, hnode, hother⟩

theorem yields_stringField (hneeds : Needs place d key .text) :
    Yields (d.stringField path key) (fun s => d.get? key = some (string s)) (Blamed v) := by
  refine (yields_child h (.inl ⟨_, hneeds⟩)).bind fun ⟨c, hc⟩ _ => ?_
  dsimp only
  split
  · next s => exact .ok hc
  · next hother =>
    refine .error ⟨place, d, h, .text, c, hneeds, hc, ?_⟩
    rintro ⟨s, rfl⟩
    exact hother s rfl

theorem yields_listField (hneeds : Needs place d key .list) :
    Yields (d.listField path key) (fun items => d.get? key = some (list items)) (Blamed v) := by
  refine (yields_child h (.inl ⟨_, hneeds⟩)).bind fun ⟨c, hc⟩ _ => ?_
  dsimp only
  split
  · next items => exact .ok hc
  · next hother =>
    refine .error ⟨place, d, h, .list, c, hneeds, hc, ?_⟩
    rintro ⟨items, rfl⟩
    exact hother items rfl

theorem yields_intField {low high : Int} (hneeds : Needs place d key (.integer low high)) :
    Yields (d.intField path key low high)
      (fun n => d.get? key = some (int n) ∧ low ≤ n ∧ n ≤ high) (Blamed v) := by
  refine (yields_child h (.inl ⟨_, hneeds⟩)).bind fun ⟨c, hc⟩ _ => ?_
  have hfault : ¬ (FieldSort.integer low high).Holds c → Blamed v ⟨path, .wrongType key⟩ :=
    fun hc' => ⟨place, d, h, _, c, hneeds, hc, hc'⟩
  dsimp only
  split
  · next n =>
    split
    · next hn => exact .ok ⟨hc, hn⟩
    · next hn =>
      refine .error (hfault ?_)
      rintro ⟨m, hm, hbounds⟩
      cases hm
      exact hn hbounds
  · next hother =>
    refine .error (hfault ?_)
    rintro ⟨n, rfl, -⟩
    exact hother n rfl

/-- The line and the type of a node are read first, and are all that its place asks for. -/
theorem yields_heading {β : Type} {good : β → Prop} {f : Nat → String → Except DecodeError β}
    (hplace : place.fields = [("line", .integer 0 maxUInt64), ("type", .text)])
    (hf : ∀ (line : Nat) (type : String),
      d.get? "line" = some (int line) → d.get? "type" = some (string type) →
      d.nodeType? = NodeType.ofName? type → (∀ f ∈ place.fields, d.HasField f) →
        Yields (f line type) good (Blamed v)) :
    Yields (do
        let line ← d.lineField path
        let type ← d.stringField path "type"
        f line type) good (Blamed v) := by
  have hline : Yields (d.lineField path)
      (fun n => d.get? "line" = some (int n) ∧ n ≤ maxUInt64) (Blamed v) := by
    refine (yields_intField h (.inl (hplace ▸ List.mem_cons_self))).map fun n hn => ?_
    obtain ⟨hget, hlow, hhigh⟩ := hn
    obtain ⟨n, rfl⟩ := Int.eq_ofNat_of_zero_le hlow
    exact ⟨hget, Int.ofNat_le.mp hhigh⟩
  refine hline.bind fun line hline => ?_
  have htype : ("type", .text) ∈ place.fields := hplace ▸ by decide
  refine (yields_stringField h (.inl htype)).bind fun type htype => ?_
  refine hf line type hline.1 htype (nodeType?_of_get? htype) ?_
  rw [hplace]
  simp [HasField, FieldSort.Holds, hline, htype]

theorem yields_operatorField {α : Type} {ofSymbol? : String → Option α} {symbol : α → String}
    {t : NodeType} {symbols : List String} (hd : d.IsNodeAt place t)
    (hsymbols : t.operators? = some ("operator", symbols))
    (hsymbol : ∀ {s a}, ofSymbol? s = some a → symbol a = s)
    (hknown : ∀ s ∈ symbols, ofSymbol? s ≠ none) :
    Yields (d.operatorField path ofSymbol?)
      (fun a => d.get? "operator" = some (string (symbol a))) (Blamed v) := by
  have hneeds : Needs place d "operator" .text :=
    .inr ⟨t, hd, NodeType.mem_fields_of_operators? hsymbols⟩
  refine (yields_stringField h hneeds).bind fun s hs => ?_
  split
  · next a ha => exact .ok (by rw [hs, hsymbol ha])
  · next hnone =>
    exact .error ⟨place, d, h, t, _, symbols, hd, hsymbols, hs, fun hmem => hknown s hmem hnone⟩

/-- A part of a node is there, and its place is known, or there is a fault. -/
theorem yields_part {β : Type} {good : β → Prop} {t : NodeType} (step : Step) (inner : Place)
    {f : { c : Document // d.get? key = some c } → Except DecodeError β}
    (hd : d.IsNodeAt place t) (hpart : (step, key, inner) ∈ t.parts) (hpolicy : t ≠ .policy)
    (hf : ∀ c (hc : d.get? key = some c), Located v (path ++ [step]) inner c →
      Yields (f ⟨c, hc⟩) good (Blamed v)) :
    Yields (d.child path key >>= f) good (Blamed v) :=
  (yields_child h (.inr ⟨t, step, inner, hd, hpart⟩)).bind fun ⟨c, hc⟩ _ =>
    hf c hc (h.step (.part hd hpart hc fun ht => (hpolicy ht).elim))

/-- A type that none of the nodes at the place has is a fault there. -/
theorem blamed_of_unexpectedType {type : String} (hplace : place ≠ .actions)
    (htype : d.get? "type" = some (string type))
    (hother : ∀ t ∈ place.types, NodeType.ofName? type ≠ some t) :
    Blamed v ⟨path, .unexpectedType type place.expected⟩ :=
  ⟨place, d, h, hplace, htype, fun t ht hname => hother t ht (hname ▸ t.ofName?_name), rfl⟩

end Fields

end Document

open Document

variable {v d : Document} {path : Path} {place : Place}

theorem map_eq_map_of_forall₂ {α β γ : Type} {f : α → γ} {g : β → γ} {as : List α} {bs : List β}
    (h : List.Forall₂ (fun a b => f a = g b) as bs) : as.map f = bs.map g := by
  rw [← List.forall₂_eq_eq_eq, List.forall₂_map_left_iff, List.forall₂_map_right_iff]
  exact h

/-- What a relation asks of its left side holds of every item of the left list. -/
theorem forall_mem_of_forall₂ {α β : Type} {rel : α → β → Prop} {p : α → Prop} {as : List α}
    {bs : List β} (h : List.Forall₂ rel as bs) (hp : ∀ a b, rel a b → p a) : ∀ a ∈ as, p a :=
  ((List.forall₂_and_left as bs).mp (h.imp fun a b hab => ⟨hp a b hab, hab⟩)).1

/-! ## Literals and action sets -/

/-- A literal stands among actions, or as an operand that is nothing else. -/
theorem Literal.yields_decode (h : Located v path place d)
    (hplace : place = .action ∨ place = .operand)
    (hliteral : ∀ t ∈ place.types, d.nodeType? = some t → t ∈ Place.action.types) :
    Yields (decode path d)
      (fun l => d.gist = l.encode ∧ d.nodeType? = some l.type ∧ Faultless place d)
      (Blamed v) := by
  have htypes : ∀ t ∈ Place.action.types, t ∈ place.types := by
    rcases hplace with rfl | rfl <;> decide
  refine yields_heading h (by rcases hplace with rfl | rfl <;> rfl)
    fun line type hline htype hnode hhas => ?_
  split
  case h_1 ht | h_3 ht =>
    rw [ht] at hnode
    have hd : d.IsNodeAt place _ := ⟨hnode, htypes _ (by decide)⟩
    refine (yields_stringField h (.inr ⟨_, hd, by decide⟩)).bind fun value hvalue =>
      .ok ⟨?_, hnode, .leaf (by decide) rfl rfl hd hhas ?_⟩
    · simp [gist_of_type hnode, NodeType.keys, hline, htype, hvalue, encode,
        NodeType.name_of_ofName? ht]
    · simp [NodeType.fields, HasField, FieldSort.Holds, hvalue]
  case h_2 ht =>
    rw [ht] at hnode
    have hd : d.IsNodeAt place .number := ⟨hnode, htypes _ (by decide)⟩
    refine (yields_intField h (.inr ⟨_, hd, List.mem_cons_self⟩)).bind fun value hvalue =>
      .ok ⟨?_, hnode, .leaf (by decide) rfl rfl hd hhas ?_⟩
    · simp [gist_of_type hnode, NodeType.keys, hline, htype, hvalue.1, encode,
        NodeType.name_of_ofName? ht]
    · intro f hf
      obtain rfl := List.mem_singleton.mp hf
      exact ⟨.int value, hvalue.1, value, rfl, hvalue.2⟩
  case h_4 ht =>
    rw [ht] at hnode
    have hd : d.IsNodeAt place .wildcard := ⟨hnode, htypes _ (by decide)⟩
    refine .ok ⟨?_, hnode, .leaf (by decide) rfl rfl hd hhas (by simp [NodeType.fields])⟩
    simp [gist_of_type hnode, NodeType.keys, hline, htype, encode, NodeType.name_of_ofName? ht]
  case h_5 hidentifier hnumber hstring hwildcard =>
    have hexpected : place.expected = "a literal or expression node" := by
      rcases hplace with rfl | rfl <;> rfl
    rw [← hexpected]
    refine .error (blamed_of_unexpectedType h ?_ htype fun t ht hof => ?_)
    · rcases hplace with rfl | rfl <;> decide
    have hmem := hliteral t ht (hnode.trans hof)
    simp only [Place.types, List.mem_cons, List.not_mem_nil, or_false] at hmem
    rcases hmem with rfl | rfl | rfl | rfl
    · exact hidentifier hof
    · exact hnumber hof
    · exact hstring hof
    · exact hwildcard hof

theorem ActionName.literal_of_ofLiteral? {l : Literal} {a : ActionName}
    (h : ofLiteral? l = some a) : a.literal = l := by
  cases l <;> cases h <;> rfl

theorem ActionName.map_literal_of_mapM {items : List Literal} {names : List ActionName}
    (h : items.mapM ofLiteral? = some names) : names.map literal = items := by
  induction items generalizing names with
  | nil => simp_all
  | cons l ls ih =>
    simp only [List.mapM_cons, Option.bind_eq_bind, Option.bind_eq_some_iff, Option.pure_def,
      Option.some.injEq] at h
    obtain ⟨a, ha, as, has, rfl⟩ := h
    rw [List.map_cons, literal_of_ofLiteral? ha, ih has]

namespace ActionSet

theorem literals_of_ofLiterals? {items : List Literal} {a : ActionSet}
    (h : ofLiterals? items = some a) : a.literals = items := by
  unfold ofLiterals? at h
  split at h
  · cases h
    rfl
  · unfold ofNames? at h
    split at h
    · next first more hnames =>
      cases h
      exact ActionName.map_literal_of_mapM hnames
    · simp at h

/-- Names make a set, and so does a wildcard alone, and nothing else does. -/
theorem ofLiterals?_isSome_iff {items : List Literal} :
    (ofLiterals? items).isSome = true ↔ AreActions (items.map fun l => some l.type) := by
  refine ⟨fun h => ?_, ?_⟩
  · obtain ⟨a, ha⟩ := Option.isSome_iff_exists.mp h
    obtain rfl := literals_of_ofLiterals? ha
    cases a with
    | wildcard line => exact .inl rfl
    | named first more =>
      refine .inr ⟨by simp [literals], ?_⟩
      simp only [literals, List.map_cons, List.map_map, List.forall_mem_cons, List.forall_mem_map]
      exact ⟨by cases first <;> simp [ActionName.literal, Literal.type],
        fun a _ => by cases a <;> simp [ActionName.literal, Literal.type]⟩
  · rintro (hwildcard | ⟨hne, hnames⟩)
    · obtain ⟨l, rfl, hl⟩ := List.map_eq_singleton_iff.mp hwildcard
      cases l <;> simp_all [Literal.type, ofLiterals?]
    · have hliteral : ∀ l ∈ items, ∃ a : ActionName, a.literal = l := by
        intro l hl
        have hname := hnames _ (List.mem_map_of_mem hl)
        cases l with
        | identifier name line => exact ⟨.bare name line, rfl⟩
        | string name line => exact ⟨.quoted name line, rfl⟩
        | number n line => simp [Literal.type] at hname
        | wildcard line => simp [Literal.type] at hname
      obtain ⟨names, rfl⟩ : items ∈ Set.range (List.map ActionName.literal) := by
        rw [Set.range_list_map]
        exact hliteral
      cases names with
      | nil => exact (hne rfl).elim
      | cons first more =>
        have hset := ofLiterals?_literals (named first more)
        rw [literals, ← List.map_cons] at hset
        rw [hset, Option.isSome_some]

/-- The actions of a role or a policy. -/
theorem yields_decode {t : NodeType} (h : Located v path place d) (hd : d.IsNodeAt place t)
    (hfield : ("actions", .list) ∈ t.fields) (hpart : (.actions, "actions", .actions) ∈ t.parts) :
    Yields (decode path d)
      (fun a => ∃ items, d.get? "actions" = some (.list items) ∧ (list items).gist = a.encode ∧
        Faultless .actions (list items))
      (Blamed v) := by
  refine (yields_listField h (.inr ⟨t, hd, hfield⟩)).bind fun items hitems => ?_
  have hlist : Located v (path ++ [.actions]) .actions (.list items) :=
    h.step (.part hd hpart hitems fun _ => by simp)
  have hitem : ∀ i c, items[i]? = some c →
      Yields (Literal.decode (path ++ [.actions, .action i]) c)
        (fun l => (∃ path, Literal.decode path c = .ok l) ∧ c.gist = l.encode ∧
          c.nodeType? = some l.type ∧ Faultless .action c) (Blamed v) := by
    intro i c hc
    have hlocated : Located v (path ++ [.actions, .action i]) .action c := by
      simpa using hlist.step (.action hc)
    exact (Literal.yields_decode hlocated (.inl rfl) fun t ht _ => ht).and_eq_ok
      fun l hl => ⟨_, hl⟩
  refine (yields_mapM_zipIdx 0 fun i c hc => by simpa using hitem i c hc).bind
    fun literals hall => ?_
  have hgists : items.map gist = literals.map Literal.encode :=
    map_eq_map_of_forall₂ (hall.imp fun c l hl => hl.2.1)
  have htypes : items.map nodeType? = literals.map fun l => some l.type :=
    map_eq_map_of_forall₂ (hall.imp fun c l hl => hl.2.2.1)
  split
  · next a ha =>
    have hfaultless : ∀ c ∈ items, Faultless .action c :=
      forall_mem_of_forall₂ hall fun c l hl => hl.2.2.2
    refine .ok ⟨items, hitems, ?_, .actions hfaultless ?_⟩
    · simp [hgists, encode, literals_of_ofLiterals? ha]
    · rw [htypes, ← ofLiterals?_isSome_iff, ha, Option.isSome_some]
  · next hnone =>
    have hdecodes : ∀ c ∈ items, ∃ path l, Literal.decode path c = .ok l :=
      forall_mem_of_forall₂ hall fun c l hl => hl.1.imp fun path hpath => ⟨l, hpath⟩
    refine .error ⟨.actions, .list items, hlist, rfl, items, rfl, hdecodes, ?_⟩
    rw [htypes, ← ofLiterals?_isSome_iff, hnone]
    simp

end ActionSet

/-! ## Operands and conditions -/

theorem Expr.yields_decode {path : Path} {d : Document} (h : Located v path .operand d) :
    Yields (decode path d) (fun e => d.gist = e.encode ∧ Faultless .operand d) (Blamed v) := by
  rw [decode]
  refine yields_heading h rfl fun line type hline htype hnode hhas => ?_
  split
  case h_1 ht =>
    rw [ht] at hnode
    have hd : d.IsNodeAt .operand .binary := ⟨hnode, by decide⟩
    refine (yields_operatorField h hd rfl BinaryOp.symbol_of_ofSymbol? (by decide)).bind
      fun op hop => ?_
    refine yields_part h .left .operand hd (by decide) (by decide) fun l hl hleft => ?_
    refine (Expr.yields_decode hleft).bind fun left hleft => ?_
    refine yields_part h .right .operand hd (by decide) (by decide) fun r hr hright => ?_
    refine (Expr.yields_decode hright).bind fun right hright =>
      .ok ⟨?_, .node (by decide) hd hhas ?_ ?_ ?_⟩
    · simp [gist_of_type hnode, NodeType.keys, hline, htype, hop, hl, hr, hleft.1, hright.1,
        encode, NodeType.name_of_ofName? ht]
    · simp [NodeType.fields, HasField, FieldSort.Holds, hop]
    · simpa [NodeType.operators?, hop] using by cases op <;> decide
    · simp [NodeType.parts, hl, hr, hleft.2, hright.2]
  case h_2 ht =>
    rw [ht] at hnode
    have hd : d.IsNodeAt .operand .unary := ⟨hnode, by decide⟩
    refine (yields_operatorField h hd rfl Sign.symbol_of_ofSymbol? (by decide)).bind
      fun sign hsign => ?_
    refine yields_part h .operand .operand hd (by decide) (by decide) fun o ho hoperand => ?_
    refine (Expr.yields_decode hoperand).bind fun operand hoperand =>
      .ok ⟨?_, .node (by decide) hd hhas ?_ ?_ ?_⟩
    · simp [gist_of_type hnode, NodeType.keys, hline, htype, hsign, ho, hoperand.1, encode,
        NodeType.name_of_ofName? ht]
    · simp [NodeType.fields, HasField, FieldSort.Holds, hsign]
    · simpa [NodeType.operators?, hsign] using by cases sign <;> decide
    · simp [NodeType.parts, ho, hoperand.2]
  case h_3 ht =>
    rw [ht] at hnode
    have hd : d.IsNodeAt .operand .access := ⟨hnode, by decide⟩
    refine (yields_stringField h (.inr ⟨_, hd, by decide⟩)).bind fun object hobject => ?_
    refine (yields_stringField h (.inr ⟨_, hd, by decide⟩)).bind fun name hname =>
      .ok ⟨?_, .leaf (by decide) rfl rfl hd hhas ?_⟩
    · simp [gist_of_type hnode, NodeType.keys, hline, htype, hobject, hname, encode,
        NodeType.name_of_ofName? ht]
    · simp [NodeType.fields, HasField, FieldSort.Holds, hobject, hname]
  case h_4 hbinary hunary haccess =>
    refine (Literal.yields_decode h (.inr rfl) fun t ht hd => ?_).map
      fun l hl => ⟨hl.1, hl.2.2⟩
    have hof := hnode.symm.trans hd
    simp only [Place.types, List.mem_cons, List.not_mem_nil, or_false] at ht
    rcases ht with rfl | rfl | rfl | ht
    · exact (hbinary hof).elim
    · exact (hunary hof).elim
    · exact (haccess hof).elim
    · simpa [Place.types] using ht
termination_by sizeOf d
decreasing_by all_goals exact Document.sizeOf_get?_lt ‹_›

theorem Condition.yields_decode {path : Path} {d : Document} (h : Located v path .condition d) :
    Yields (decode path d) (fun c => d.gist = c.encode ∧ Faultless .condition d) (Blamed v) := by
  rw [decode]
  refine yields_heading h rfl fun line type hline htype hnode hhas => ?_
  split
  case h_1 ht | h_2 ht =>
    rw [ht] at hnode
    have hd : d.IsNodeAt .condition _ := ⟨hnode, by decide⟩
    refine yields_part h .left .condition hd (by decide) (by decide) fun l hl hleft => ?_
    refine (Condition.yields_decode hleft).bind fun left hleft => ?_
    refine yields_part h .right .condition hd (by decide) (by decide) fun r hr hright => ?_
    refine (Condition.yields_decode hright).bind fun right hright =>
      .ok ⟨?_, .node (by decide) hd hhas ?_ ?_ ?_⟩
    · simp [gist_of_type hnode, NodeType.keys, hline, htype, hl, hr, hleft.1, hright.1, encode,
        NodeType.name_of_ofName? ht]
    · simp [NodeType.fields]
    · simp [NodeType.operators?]
    · simp [NodeType.parts, hl, hr, hleft.2, hright.2]
  case h_3 ht =>
    rw [ht] at hnode
    have hd : d.IsNodeAt .condition .comparison := ⟨hnode, by decide⟩
    refine (yields_operatorField h hd rfl Relation.symbol_of_ofSymbol? (by decide)).bind
      fun relation hrelation => ?_
    refine yields_part h .left .operand hd (by decide) (by decide) fun l hl hleft => ?_
    refine (Expr.yields_decode hleft).bind fun left hleft => ?_
    refine yields_part h .right .operand hd (by decide) (by decide) fun r hr hright => ?_
    refine (Expr.yields_decode hright).bind fun right hright =>
      .ok ⟨?_, .node (by decide) hd hhas ?_ ?_ ?_⟩
    · simp [gist_of_type hnode, NodeType.keys, hline, htype, hrelation, hl, hr, hleft.1, hright.1,
        encode, Comparison.encode, NodeType.name_of_ofName? ht]
    · simp [NodeType.fields, HasField, FieldSort.Holds, hrelation]
    · simpa [NodeType.operators?, hrelation] using by cases relation <;> decide
    · simp [NodeType.parts, hl, hr, hleft.2, hright.2]
  case h_4 hand hor hcomparison =>
    refine .error (blamed_of_unexpectedType h (by decide) htype fun t ht hof => ?_)
    simp only [Place.types, List.mem_cons, List.not_mem_nil, or_false] at ht
    rcases ht with rfl | rfl | rfl
    · exact hand hof
    · exact hor hof
    · exact hcomparison hof
termination_by sizeOf d
decreasing_by all_goals exact Document.sizeOf_get?_lt ‹_›

/-! ## Declarations and programs -/

/-- What is read after the condition of a policy may rely on the condition. -/
theorem Policy.yields_condition {β : Type} {rest : Option Condition → Except DecodeError β}
    {P : β → Prop} (h : Located v path .declaration d) (hd : d.IsNodeAt .declaration .policy)
    (hrest : ∀ c condition, d.get? "condition" = some c →
      c.gist = (condition.map Condition.encode).getD .null →
      (c ≠ .null → Faultless .condition c) → Yields (rest condition) P (Blamed v)) :
    Yields (do
        let ⟨c, _⟩ ← d.child path "condition"
        let condition ←
          match c with
          | .null => pure none
          | c => some <$> Condition.decode (path ++ [.condition]) c
        rest condition) P (Blamed v) := by
  have hpart : (.condition, "condition", .condition) ∈ NodeType.policy.parts := by decide
  refine (yields_child h (.inr ⟨_, _, _, hd, hpart⟩)).bind fun ⟨c, hc⟩ _ => ?_
  dsimp only
  split
  · exact hrest .null none hc rfl fun hne => (hne rfl).elim
  · next hne =>
    have hdecode : Yields (some <$> Condition.decode (path ++ [.condition]) c)
        (fun condition => c.gist = (condition.map Condition.encode).getD .null ∧
          Faultless .condition c) (Blamed v) :=
      (Condition.yields_decode (h.step (.part hd hpart hc fun _ => hne))).map
        fun _ hgist => hgist
    exact hdecode.bind fun condition hgist => hrest c condition hc hgist.1 fun _ => hgist.2

theorem Policy.yields_decode {line : Nat} (h : Located v path .declaration d)
    (hd : d.IsNodeAt .declaration .policy)
    (hhas : ∀ f ∈ Place.declaration.fields, d.HasField f)
    (htype : d.get? "type" = some (.string NodeType.policy.name))
    (hline : d.get? "line" = some (.int line)) :
    Yields (decode path d line)
      (fun p => d.gist = (Declaration.policy p).encode ∧ Faultless .declaration d) (Blamed v) := by
  refine (yields_stringField h (.inr ⟨_, hd, by decide⟩)).bind fun keyword hkeyword => ?_
  refine Policy.yields_condition h hd fun c condition hc hgist hcondition => ?_
  split
  · next hnone =>
    have hknown : ∀ s ∈ ["ALLOW", "DENY"], Effect.ofKeyword? s ≠ none := by decide
    exact .error ⟨.declaration, d, h, .policy, _, _, hd, rfl, hkeyword,
      fun hmem => hknown keyword hmem hnone⟩
  · next effect heffect =>
    obtain rfl := Effect.keyword_of_ofKeyword? heffect
    refine (ActionSet.yields_decode h hd (by decide) (by decide)).bind fun actions hactions => ?_
    refine (yields_stringField h (.inr ⟨_, hd, by decide⟩)).bind fun resource hresource => ?_
    obtain ⟨items, hitems, hactions, hlist⟩ := hactions
    refine .ok ⟨?_, .node (by decide) hd hhas ?_ ?_ ?_⟩
    · simp [gist_of_type hd.nodeType?, NodeType.keys, hline, htype, hitems, hactions, hc, hgist,
        hkeyword, hresource, Declaration.encode]
    · simp [NodeType.fields, HasField, FieldSort.Holds, hkeyword, hitems, hresource]
    · simpa [NodeType.operators?, hkeyword] using by cases effect <;> decide
    · simpa [NodeType.parts, hitems, hlist, hc] using hcondition

theorem Declaration.yields_decode (h : Located v path .declaration d) :
    Yields (decode path d) (fun a => d.gist = a.encode ∧ Faultless .declaration d)
      (Blamed v) := by
  refine yields_heading h rfl fun line type hline htype hnode hhas => ?_
  split
  case h_1 ht =>
    rw [ht] at hnode
    have hd : d.IsNodeAt .declaration .role := ⟨hnode, by decide⟩
    refine (yields_stringField h (.inr ⟨_, hd, by decide⟩)).bind fun name hname => ?_
    refine (ActionSet.yields_decode h hd (by decide) (by decide)).bind fun actions hactions => ?_
    obtain ⟨items, hitems, hactions, hlist⟩ := hactions
    refine .ok ⟨?_, .node (by decide) hd hhas ?_ ?_ ?_⟩
    · simp [gist_of_type hnode, NodeType.keys, hline, htype, hname, hitems, hactions, encode,
        NodeType.name_of_ofName? ht]
    · simp [NodeType.fields, HasField, FieldSort.Holds, hname, hitems]
    · simp [NodeType.operators?]
    · simp [NodeType.parts, hitems, hlist]
  case h_2 ht | h_3 ht =>
    rw [ht] at hnode
    have hd : d.IsNodeAt .declaration _ := ⟨hnode, by decide⟩
    refine (yields_stringField h (.inr ⟨_, hd, by decide⟩)).bind fun name hname => ?_
    refine (yields_stringField h (.inr ⟨_, hd, by decide⟩)).bind fun other hother =>
      .ok ⟨?_, .leaf (by decide) rfl rfl hd hhas ?_⟩
    · simp [gist_of_type hnode, NodeType.keys, hline, htype, hname, hother, encode,
        NodeType.name_of_ofName? ht]
    · simp [NodeType.fields, HasField, FieldSort.Holds, hname, hother]
  case h_4 ht =>
    rw [ht] at hnode
    rw [← NodeType.name_of_ofName? ht] at htype
    exact (Policy.yields_decode h ⟨hnode, by decide⟩ hhas htype hline).map fun p hp => hp
  case h_5 hrole huser hresource hpolicy =>
    refine .error (blamed_of_unexpectedType h (by decide) htype fun t ht hof => ?_)
    simp only [Place.types, List.mem_cons, List.not_mem_nil, or_false] at ht
    rcases ht with rfl | rfl | rfl | rfl
    · exact hrole hof
    · exact huser hof
    · exact hresource hof
    · exact hpolicy hof

namespace Program

/-- The root says that it is a program and lists what its declarations encode. -/
theorem yields_decode (v : Document) :
    Yields (decode v)
      (fun p => v.get? "type" = some (.string NodeType.program.name) ∧
        (v.get? "declarations").map gist = some (.list (p.declarations.map Declaration.encode)) ∧
        p.line = (p.declarations.head?.map Declaration.line).getD 0 ∧ Faultless .program v)
      (Blamed v) := by
  have h : Located v [] .program v := .root
  refine (yields_stringField h (.inl (by decide))).bind fun type htype => ?_
  have hnode := nodeType?_of_get? htype
  split
  · next ht =>
    rw [ht] at hnode
    have hd : v.IsNodeAt .program .program := ⟨hnode, by decide⟩
    refine (yields_listField h (.inr ⟨_, hd, by decide⟩)).bind fun items hitems => ?_
    have hitem : ∀ i c, items[i]? = some c →
        Yields (Declaration.decode [.declaration i] c)
          (fun a => c.gist = a.encode ∧ Faultless .declaration c) (Blamed v) :=
      fun i c hc => Declaration.yields_decode (h.step (.declaration hd hitems hc))
    refine (yields_mapM_zipIdx 0 fun i c hc => by simpa using hitem i c hc).bind
      fun declarations hall => .ok ?_
    have hgists : items.map gist = declarations.map Declaration.encode :=
      map_eq_map_of_forall₂ (hall.imp fun c a ha => ha.1)
    refine ⟨by rw [htype, NodeType.name_of_ofName? ht], ?_, rfl, .of_parts hd ?_ ?_ ?_ ?_ ?_⟩
    · simp [hitems, hgists, ofDeclarations]
    · simp [Place.fields, HasField, FieldSort.Holds, htype]
    · simp [NodeType.fields, HasField, FieldSort.Holds, hitems]
    · simp [NodeType.operators?]
    · simp [NodeType.parts]
    · rintro - items' hitems' c hc
      obtain rfl : items = items' := by simpa using hitems.symm.trans hitems'
      exact forall_mem_of_forall₂ hall (fun c a ha => ha.2) c hc
  · next hprogram =>
    refine .error (blamed_of_unexpectedType h (by decide) htype fun t ht hof => ?_)
    obtain rfl := List.mem_singleton.mp ht
    exact hprogram hof

end Program

end AccessPolicy
