import AccessPolicy.Grammar.Declaration
import AccessPolicy.Proofs.Grammar.Expression

/-!
# The readers of declarations are exact

Every reader of a form of declaration matches the rule of the grammar for it
(`Reader.matches_declaration`). A declaration is the same before any token that cannot belong
to it, and its keyword tells which of the four forms it is.
-/

namespace AccessPolicy.Reader

open Grammar

variable {n : Nat}

/-! ## Actions -/

theorem matches_actionName :
    actionName.Matches Named ⟨false, [.kind .identifier, .kind .string], []⟩ n := by
  refine Matches.congr ((matches_identifier.map _).or (matches_string.map _) rfl rfl (by decide))
    fun s a => ⟨?_, ?_⟩
  · rintro (⟨_, ⟨m, rfl, rfl⟩, rfl⟩ | ⟨_, ⟨m, rfl, rfl⟩, rfl⟩)
    · exact .bare m
    · exact .quoted m
  · rintro (m | m)
    · exact Or.inl ⟨_, ⟨m, rfl, rfl⟩, rfl⟩
    · exact Or.inr ⟨_, ⟨m, rfl, rfl⟩, rfl⟩

theorem exists_first_of_names : ∀ {s : List Item} {as : List ActionName}, Names s as →
    ∃ u v a bs, s = u ++ v ∧ Named u a ∧ as = a :: bs ∧
      ((Phrase.leaf (.kind .comma) Leaf.Match.token).seq fun _ => Named).Star v bs
  | _, _, .one h => ⟨_, [], _, [], (List.append_nil _).symm, h, rfl, .nil⟩
  | _, _, .more h comma hs => by
    obtain ⟨u, v, a, bs, rfl, hu, rfl, hv⟩ := exists_first_of_names hs
    exact ⟨_, _, _, _, rfl, h, rfl, .cons ⟨[↑comma], u, _, rfl, ⟨comma, rfl, rfl⟩, hu⟩ hv⟩

theorem names_of_star {v : List Item} {bs : List ActionName}
    (hv : ((Phrase.leaf (.kind .comma) Leaf.Match.token).seq fun _ => Named).Star v bs) :
    ∀ {u : List Item} {a : ActionName}, Named u a → Names (u ++ v) (a :: bs) := by
  induction hv with
  | nil =>
    intro u a hu
    rw [List.append_nil]
    exact .one hu
  | cons h _ ih =>
    intro u a hu
    obtain ⟨comma, w, rfl, hw⟩ := Phrase.leaf_seq_iff.mp h
    exact .more hu comma (ih hw)

theorem matches_actions :
    actions.Matches Actions
      ⟨false, [.kind .wildcard, .kind .identifier, .kind .string], [.kind .comma]⟩ n := by
  have hmore := ((matches_kind (n := n) .comma).leafBind fun _ => matches_actionName).many rfl
    (by decide)
  have hnames : actionNames.Matches _ _ n :=
    matches_actionName.bind (fun first => hmore.map _) (by decide)
  refine (Matches.reshape (((matches_kind _).map _).or hnames rfl rfl (by decide)) (by decide)
    (by decide) (by decide)).congr fun s a => ⟨?_, ?_⟩
  · rintro (⟨_, ⟨m, rfl, rfl⟩, rfl⟩ | ⟨u, v, a, rfl, hu, bs, hv, rfl⟩)
    · exact .wildcard m
    · exact .named (names_of_star hv hu)
  · rintro (m | h)
    · exact Or.inl ⟨_, ⟨m, rfl, rfl⟩, rfl⟩
    · obtain ⟨u, v, a, bs, rfl, hu, has, hv⟩ := exists_first_of_names h
      obtain ⟨rfl, rfl⟩ := List.cons.inj has
      exact Or.inr ⟨u, v, _, rfl, hu, _, hv, rfl⟩

/-! ## Declarations -/

theorem matches_role : role.Matches RoleDef (.leaf (.kind .role)) n := by
  refine Matches.congr
    ((matches_kind _).leafBind fun keyword => matches_identifier.leafBind fun name =>
      (matches_kind _).leafBind fun _ => (matches_kind _).leafBind fun _ =>
      (matches_kind _).leafBind fun _ => matches_actions.bind (fun set =>
      (matches_kind _).leafBind fun _ => Matches.pure _) (by decide)) ?_
  intro s r
  simp only [Phrase.leaf_seq_iff]
  refine ⟨?_, ?_⟩
  · rintro ⟨keyword, _, rfl, name, _, rfl, left, _, rfl, can, _, rfl, colon, _, rfl, u, _, a, rfl,
      ha, h⟩
    obtain ⟨right, _, rfl, rfl, rfl⟩ := Phrase.leaf_seq_iff.mp h
    exact .mk keyword name left can colon ha right
  · rintro ⟨keyword, name, left, can, colon, ha, right⟩
    exact ⟨keyword, _, rfl, name, _, rfl, left, _, rfl, can, _, rfl, colon, _, rfl, _, _, _, rfl,
      ha, Phrase.leaf_seq_iff.mpr ⟨right, _, rfl, rfl, rfl⟩⟩

theorem matches_user : user.Matches UserDef (.leaf (.kind .user)) n := by
  refine Matches.congr
    ((matches_kind _).leafBind fun keyword => matches_identifier.leafBind fun name =>
      (matches_kind _).leafBind fun _ => (matches_identifierNamed _).leafBind fun _ =>
      (matches_kind _).leafBind fun _ => matches_identifier.leafBind fun role =>
      (matches_kind _).leafBind fun _ => Matches.pure _) ?_
  intro s u
  simp only [Phrase.leaf_seq_iff]
  refine ⟨?_, ?_⟩
  · rintro ⟨keyword, _, rfl, name, _, rfl, left, _, rfl, field, _, rfl, colon, _, rfl, role, _, rfl,
      right, _, rfl, rfl, rfl⟩
    exact .mk keyword name left field colon role right
  · rintro ⟨keyword, name, left, field, colon, role, right⟩
    exact ⟨keyword, _, rfl, name, _, rfl, left, _, rfl, field, _, rfl, colon, _, rfl, role, _, rfl,
      right, _, rfl, rfl, rfl⟩

theorem matches_resource : resource.Matches ResourceDef (.leaf (.kind .resource)) n := by
  refine Matches.congr
    ((matches_kind _).leafBind fun keyword => matches_identifier.leafBind fun name =>
      (matches_kind _).leafBind fun _ => (matches_kind _).leafBind fun _ =>
      (matches_kind _).leafBind fun _ => matches_string.leafBind fun path =>
      (matches_kind _).leafBind fun _ => Matches.pure _) ?_
  intro s r
  simp only [Phrase.leaf_seq_iff]
  refine ⟨?_, ?_⟩
  · rintro ⟨keyword, _, rfl, name, _, rfl, left, _, rfl, field, _, rfl, colon, _, rfl, path, _, rfl,
      right, _, rfl, rfl, rfl⟩
    exact .mk keyword name left field colon path right
  · rintro ⟨keyword, name, left, field, colon, path, right⟩
    exact ⟨keyword, _, rfl, name, _, rfl, left, _, rfl, field, _, rfl, colon, _, rfl, path, _, rfl,
      right, _, rfl, rfl, rfl⟩

theorem matches_effect :
    effect.Matches (fun s x => ∃ (e : Effect) (m : (Leaf.kind e.kind).Match),
      s = [↑m] ∧ x = (e, m.line)) ⟨false, [.kind .allow, .kind .deny], []⟩ n := by
  refine Matches.congr (((matches_kind _).map _).or ((matches_kind _).map _) rfl rfl (by decide))
    fun s x => ⟨?_, ?_⟩
  · rintro (⟨_, ⟨m, rfl, rfl⟩, rfl⟩ | ⟨_, ⟨m, rfl, rfl⟩, rfl⟩)
    · exact ⟨.allow, m, rfl, rfl⟩
    · exact ⟨.deny, m, rfl, rfl⟩
  · rintro ⟨e, m, rfl, rfl⟩
    cases e with
    | allow => exact Or.inl ⟨_, ⟨m, rfl, rfl⟩, rfl⟩
    | deny => exact Or.inr ⟨_, ⟨m, rfl, rfl⟩, rfl⟩

theorem matches_guard :
    guard.optional.Matches Guard ⟨true, [.kind .guard], [.kind .guard]⟩ n := by
  have hguard : guard.Matches _ _ n :=
    (matches_kind .guard).leafBind fun _ => (matches_kind .lparen).leafBind fun _ =>
      matches_condition.bind (fun c => (matches_kind .rparen).leafBind fun _ => Matches.pure c)
        (by decide)
  refine (hguard.optional rfl).congr fun s c => ⟨?_, ?_⟩
  · rintro (⟨c, h, rfl⟩ | ⟨rfl, rfl⟩)
    · simp only [Phrase.leaf_seq_iff] at h
      obtain ⟨opening, _, rfl, left, _, rfl, u, _, c, rfl, hc, h⟩ := h
      obtain ⟨right, _, rfl, rfl, rfl⟩ := Phrase.leaf_seq_iff.mp h
      exact .some opening left hc right
    · exact .none
  · rintro (_ | ⟨opening, left, hc, right⟩)
    · exact Or.inr ⟨rfl, rfl⟩
    · refine Or.inl ⟨_, ?_, rfl⟩
      simp only [Phrase.leaf_seq_iff]
      exact ⟨opening, _, rfl, left, _, rfl, _, _, _, rfl, hc,
        Phrase.leaf_seq_iff.mpr ⟨right, _, rfl, rfl, rfl⟩⟩

theorem matches_policy :
    policy.Matches PolicyDef ⟨false, [.kind .allow, .kind .deny], [.kind .guard]⟩ n := by
  refine Matches.congr
    (matches_effect.bind (fun x => (matches_kind _).leafBind fun _ =>
      (matches_kind _).leafBind fun _ => matches_actions.bind (fun set =>
      (matches_kind _).leafBind fun _ => (matches_identifierNamed _).leafBind fun _ =>
      (matches_kind _).leafBind fun _ => matches_identifier.leafBind fun name =>
      matches_guard.bind (fun c => Matches.pure _) (by decide)) (by decide)) (by decide)) ?_
  intro s p
  refine ⟨?_, ?_⟩
  · rintro ⟨_, _, _, rfl, ⟨e, keyword, rfl, rfl⟩, h⟩
    obtain ⟨action, _, rfl, haction⟩ := Phrase.leaf_seq_iff.mp h
    obtain ⟨colon, _, rfl, u, _, a, rfl, ha, hon⟩ := Phrase.leaf_seq_iff.mp haction
    simp only [Phrase.leaf_seq_iff] at hon
    obtain ⟨on, _, rfl, field, _, rfl, colon', _, rfl, resource, _, rfl, v, _, c, rfl, hc, rfl,
      rfl⟩ := hon
    rw [List.append_nil]
    exact .mk e keyword action colon ha on field colon' resource hc
  · rintro ⟨e, keyword, action, colon, ha, on, field, colon', resource, hc⟩
    refine ⟨[↑keyword], _, _, rfl, ⟨e, keyword, rfl, rfl⟩, Phrase.leaf_seq_iff.mpr ⟨action, _, rfl,
      Phrase.leaf_seq_iff.mpr ⟨colon, _, rfl, _, _, _, rfl, ha, ?_⟩⟩⟩
    simp only [Phrase.leaf_seq_iff]
    exact ⟨on, _, rfl, field, _, rfl, colon', _, rfl, resource, _, rfl, _, [], _,
      (List.append_nil _).symm, hc, rfl, rfl⟩

theorem matches_declaration :
    declaration.Matches Declared
      ⟨false, [.kind .role, .kind .user, .kind .resource, .kind .allow, .kind .deny],
        [.kind .guard]⟩ n := by
  refine Matches.congr ((matches_role.map _).or ((matches_user.map _).or
    ((matches_resource.map _).or (matches_policy.map _) rfl rfl (by decide)) rfl rfl (by decide))
    rfl rfl (by decide)) fun s d => ⟨?_, ?_⟩
  · rintro (⟨r, h, rfl⟩ | ⟨u, h, rfl⟩ | ⟨r, h, rfl⟩ | ⟨p, h, rfl⟩)
    · exact .role h
    · exact .user h
    · exact .resource h
    · exact .policy h
  · rintro (h | h | h | h)
    · exact Or.inl ⟨_, h, rfl⟩
    · exact Or.inr (Or.inl ⟨_, h, rfl⟩)
    · exact Or.inr (Or.inr (Or.inl ⟨_, h, rfl⟩))
    · exact Or.inr (Or.inr (Or.inr ⟨_, h, rfl⟩))

end AccessPolicy.Reader
