import AccessPolicy.Program.Node
import AccessPolicy.Proofs.Span
import Mathlib.Data.List.Basic

/-!
# The tree of a program

A node below another is found by a path, the numbers of the children that lead to it
(`Node.follow?`). `Node.visits` is the walk with the path of each node : no node is left out and
none is visited twice (`Node.mem_visits`), and the paths come in lexicographic order, so parents
come before their children and older siblings before younger ones (`Node.pairwise_visits`).

From the depths of the visits alone, in order, the shape of the tree can be told
(`Node.map_profile_eq`). So a profile, which has the type and the line of each node beside its
depth, tells what is at which path (`Node.tag_follow?_eq`).
-/

namespace AccessPolicy.Node

/-! ## Children -/

/-- Children are seen as what they are, however their parent is seen. -/
theorem mem_children_cases {n c : Node} (h : c ∈ n.children) :
    (∃ d, c = ofDeclaration d) ∨ (∃ l, c = literal l) ∨ (∃ d, c = ofCondition d) ∨
      ∃ e, c = ofExpr e := by
  have hliterals : ∀ {ls : List Literal}, c ∈ ls.map literal → ∃ l, c = literal l := by
    intro ls h
    obtain ⟨l, -, rfl⟩ := List.mem_map.mp h
    exact ⟨l, rfl⟩
  cases n with
  | program p =>
    obtain ⟨d, -, rfl⟩ := List.mem_map.mp h
    exact Or.inl ⟨d, rfl⟩
  | role r => exact Or.inr (Or.inl (hliterals h))
  | policy p =>
    rcases List.mem_append.mp h with h | h
    · exact Or.inr (Or.inl (hliterals h))
    · obtain ⟨d, -, rfl⟩ := Option.map_eq_some_iff.mp (Option.mem_toList.mp h)
      exact Or.inr (Or.inr (Or.inl ⟨d, rfl⟩))
  | logical d =>
    refine Or.inr (Or.inr (Or.inl ?_))
    cases d with
    | comparison d => exact ⟨.comparison d, List.mem_singleton.mp h⟩
    | _ => rcases List.mem_pair.mp h with rfl | rfl <;> exact ⟨_, rfl⟩
  | comparison d =>
    rcases List.mem_pair.mp h with rfl | rfl <;> exact Or.inr (Or.inr (Or.inr ⟨_, rfl⟩))
  | arithmetic e =>
    refine Or.inr (Or.inr (Or.inr ?_))
    cases e with
    | binary => rcases List.mem_pair.mp h with rfl | rfl <;> exact ⟨_, rfl⟩
    | unary => exact ⟨_, List.mem_singleton.mp h⟩
    | access a => exact ⟨.access a, List.mem_singleton.mp h⟩
    | literal l => exact ⟨.literal l, List.mem_singleton.mp h⟩
  | _ => exact absurd h List.not_mem_nil

/-! ## Paths -/

/-- The node at a path, which goes down to the child of the given number at each step. -/
def follow? (n : Node) : List Nat → Option Node
  | [] => some n
  | i :: path => n.children[i]?.bind (·.follow? path)

@[simp] theorem follow?_nil (n : Node) : n.follow? [] = some n :=
  rfl

theorem follow?_cons {n c : Node} {i : Nat} (h : n.children[i]? = some c) (path : List Nat) :
    n.follow? (i :: path) = c.follow? path := by
  rw [follow?, h, Option.bind_some]

theorem follow?_cons_eq_some_iff {n m : Node} {i : Nat} {path : List Nat} :
    n.follow? (i :: path) = some m ↔ ∃ c, n.children[i]? = some c ∧ c.follow? path = some m :=
  Option.bind_eq_some_iff

/-! ## Visits -/

/-- A node and all nodes below it in the order of the walk, each with its path. -/
def visits (n : Node) : List (List Nat × Node) :=
  ([], n) :: n.children.attach.zipIdx.flatMap fun (⟨c, _⟩, i) => c.visits.map (Prod.map (i :: ·) id)
termination_by n.weight
decreasing_by exact weight_lt_of_mem_children ‹_›

/-- The visits below a node. -/
def visitsBelow (n : Node) : List (List Nat × Node) :=
  n.children.zipIdx.flatMap fun (c, i) => c.visits.map (Prod.map (i :: ·) id)

theorem visits_eq (n : Node) : n.visits = ([], n) :: n.visitsBelow := by
  rw [visits, visitsBelow]
  conv_rhs => rw [← List.attach_map_subtype_val n.children, List.zipIdx_map, List.flatMap_map]
  rfl

theorem map_snd_visitsBelow {n : Node} (h : ∀ c ∈ n.children, c.visits.map Prod.snd = c.walk) :
    n.visitsBelow.map Prod.snd = n.children.flatMap walk := by
  calc n.visitsBelow.map Prod.snd
      = n.children.zipIdx.flatMap fun v => v.1.visits.map Prod.snd := by
        rw [visitsBelow, List.map_flatMap]
        exact List.flatMap_congr fun v _ => List.map_map
    _ = n.children.zipIdx.flatMap fun v => v.1.walk :=
        List.flatMap_congr fun v hv => h v.1 (List.fst_mem_of_mem_zipIdx hv)
    _ = n.children.flatMap walk := by
        rw [← List.flatMap_map Prod.fst walk, List.zipIdx_map_fst]

/-- The visits are those of the walk. -/
theorem map_snd_visits (n : Node) : n.visits.map Prod.snd = n.walk := by
  induction n using walk.induct with
  | case1 n ih => rw [visits_eq, walk_eq, List.map_cons, map_snd_visitsBelow ih]

theorem mem_visitsBelow {n m : Node} {path : List Nat} : (path, m) ∈ n.visitsBelow ↔
    ∃ c i rest, n.children[i]? = some c ∧ (rest, m) ∈ c.visits ∧ path = i :: rest := by
  simp only [visitsBelow, List.mem_flatMap, List.mem_map, Prod.exists,
    List.mk_mem_zipIdx_iff_getElem?, Prod.map_apply, id_eq, Prod.mk.injEq]
  constructor
  · rintro ⟨c, i, hc, rest, m, hm, rfl, rfl⟩
    exact ⟨c, i, rest, hc, hm, rfl⟩
  · rintro ⟨c, i, rest, hc, hm, rfl⟩
    exact ⟨c, i, hc, rest, m, hm, rfl, rfl⟩

/-- The visits are the nodes at all the paths there are. -/
theorem mem_visits {n m : Node} {path : List Nat} :
    (path, m) ∈ n.visits ↔ n.follow? path = some m := by
  induction path generalizing n with
  | nil => simp [visits_eq n, mem_visitsBelow, eq_comm]
  | cons i path ih =>
    rw [visits_eq, List.mem_cons, mem_visitsBelow, follow?_cons_eq_some_iff]
    constructor
    · rintro (h | ⟨c, i, rest, hc, hm, hpath⟩)
      · simp at h
      · obtain ⟨rfl, rfl⟩ := List.cons.inj hpath
        exact ⟨c, hc, ih.mp hm⟩
    · rintro ⟨c, hc, hm⟩
      exact Or.inr ⟨c, i, path, hc, ih.mpr hm, rfl⟩

/-- The visits below a node are the nodes at all the other paths. -/
theorem mem_visitsBelow_iff_follow? {n m : Node} {path : List Nat} :
    (path, m) ∈ n.visitsBelow ↔ path ≠ [] ∧ n.follow? path = some m := by
  cases path with
  | nil => simp [mem_visitsBelow]
  | cons i path =>
    have hmem : (i :: path, m) ∈ n.visits ↔ n.follow? (i :: path) = some m := mem_visits
    rw [visits_eq, List.mem_cons] at hmem
    simpa using hmem

theorem pairwise_visitsBelow {n : Node}
    (h : ∀ c ∈ n.children, c.visits.Pairwise fun v w => v.1 < w.1) :
    n.visitsBelow.Pairwise fun v w => v.1 < w.1 := by
  refine List.pairwise_flatMap.mpr ⟨fun ⟨c, i⟩ hc => ?_, ?_⟩
  · refine List.pairwise_map.mpr ((h c (List.fst_mem_of_mem_zipIdx hc)).imp fun hlt => ?_)
    exact List.cons_lt_cons_iff.mpr (Or.inr ⟨rfl, hlt⟩)
  · have hindices : n.children.zipIdx.Pairwise fun x y => x.2 < y.2 := by
      rw [← List.pairwise_map (f := Prod.snd), List.zipIdx_map_snd]
      exact List.pairwise_lt_range'
    refine hindices.imp fun hlt v hv w hw => ?_
    obtain ⟨v, -, rfl⟩ := List.mem_map.mp hv
    obtain ⟨w, -, rfl⟩ := List.mem_map.mp hw
    exact List.cons_lt_cons_iff.mpr (Or.inl hlt)

/-- The visits come in the lexicographic order of their paths. -/
theorem pairwise_visits (n : Node) : n.visits.Pairwise fun v w => v.1 < w.1 := by
  induction n using walk.induct with
  | case1 n ih =>
    rw [visits_eq]
    refine List.pairwise_cons.mpr ⟨fun ⟨path, m⟩ h => ?_, pairwise_visitsBelow ih⟩
    obtain ⟨c, i, rest, -, -, rfl⟩ := mem_visitsBelow.mp h
    exact List.nil_lt_cons i rest

/-! ## Profiles -/

/-- The type and the line of a node. -/
def tag (n : Node) : NodeType × Nat :=
  (n.type, n.line)

/-- The depths of the visits and the tags of their nodes, in order, for a node at some depth. -/
def profile (depth : Nat) (n : Node) : List (Nat × NodeType × Nat) :=
  n.visits.map fun v => (depth + v.1.length, v.2.tag)

/-- The profiles of the children of a node, one after the other, are made of the visits below it. -/
theorem flatMap_profile_children (depth : Nat) (n : Node) :
    n.children.flatMap (profile (depth + 1)) =
      n.visitsBelow.map fun v => (depth + v.1.length, v.2.tag) := by
  have hchild : ∀ v : Node × Nat, v.1.profile (depth + 1) = (v.1.visits.map
      (Prod.map (v.2 :: ·) id)).map fun w => (depth + w.1.length, w.2.tag) := by
    intro v
    rw [List.map_map, profile]
    refine List.map_congr_left fun w _ => ?_
    simp only [Function.comp_apply, Prod.map_fst, Prod.map_snd, List.length_cons, id_eq]
    rw [Nat.add_assoc, Nat.add_comm 1]
  calc n.children.flatMap (profile (depth + 1))
      = n.children.zipIdx.flatMap fun v => v.1.profile (depth + 1) := by
        rw [← List.flatMap_map Prod.fst, List.zipIdx_map_fst]
    _ = n.visitsBelow.map fun v => (depth + v.1.length, v.2.tag) := by
        rw [visitsBelow, List.map_flatMap]
        exact List.flatMap_congr fun v _ => hchild v

theorem profile_eq (depth : Nat) (n : Node) :
    n.profile depth = (depth, n.tag) :: n.children.flatMap (profile (depth + 1)) := by
  rw [profile, visits_eq, List.map_cons, flatMap_profile_children]
  rfl

theorem lt_of_mem_profile_children {n : Node} {depth : Nat} {v : Nat × NodeType × Nat}
    (h : v ∈ n.children.flatMap (profile (depth + 1))) : depth < v.1 := by
  obtain ⟨c, -, hv⟩ := List.mem_flatMap.mp h
  obtain ⟨w, -, rfl⟩ := List.mem_map.mp hv
  exact Nat.lt_of_lt_of_le (Nat.lt_succ_self depth) (Nat.le_add_right _ _)

/-- The profiles of some siblings can be told apart when they stand one after the other : each goes
on as long as it is deeper than its first node. -/
theorem map_profile_eq {depth : Nat} {cs ds : List Node}
    (h : cs.flatMap (profile depth) = ds.flatMap (profile depth)) :
    cs.map (profile depth) = ds.map (profile depth) := by
  have hsibling : ∀ es : List Node, ∀ v ∈ (es.flatMap (profile depth)).head?,
      decide (depth < v.1) = false := by
    intro es v hv
    cases es with
    | nil => simp at hv
    | cons e es =>
      rw [List.flatMap_cons, profile_eq, List.cons_append, List.head?_cons,
        Option.mem_some_iff] at hv
      simp [← hv]
  have hdeeper : ∀ n : Node, ∀ v ∈ n.children.flatMap (profile (depth + 1)),
      decide (depth < v.1) = true := fun n v hv => decide_eq_true (lt_of_mem_profile_children hv)
  induction cs generalizing ds with
  | nil =>
    cases ds with
    | nil => rfl
    | cons d ds => simp [profile_eq depth d] at h
  | cons c cs ih =>
    cases ds with
    | nil => simp [profile_eq depth c] at h
    | cons d ds =>
      rw [List.flatMap_cons, List.flatMap_cons, profile_eq depth c, profile_eq depth d,
        List.cons_append, List.cons_append] at h
      obtain ⟨htag, hrest⟩ := List.cons.inj h
      -- Both rests are cut where they come back to the depth of the siblings.
      have hbelow := congrArg (List.takeWhile fun v => decide (depth < v.1)) hrest
      rw [takeWhile_append_of_head? (hdeeper c) (hsibling cs),
        takeWhile_append_of_head? (hdeeper d) (hsibling ds)] at hbelow
      have hsiblings := congrArg (List.dropWhile fun v => decide (depth < v.1)) hrest
      rw [dropWhile_append_of_head? (hdeeper c) (hsibling cs),
        dropWhile_append_of_head? (hdeeper d) (hsibling ds)] at hsiblings
      rw [List.map_cons, List.map_cons, profile_eq depth c, profile_eq depth d, htag, hbelow,
        ih hsiblings]

/-- Two nodes whose children have the same profiles have the same number of children, and the tags
of the children and the profiles below them are the same. -/
theorem getElem?_children_cases {n m : Node} {depth : Nat}
    (h : n.children.map (profile depth) = m.children.map (profile depth)) (i : Nat) :
    (n.children[i]? = none ∧ m.children[i]? = none) ∨
      ∃ c d, n.children[i]? = some c ∧ m.children[i]? = some d ∧ c.tag = d.tag ∧
        c.children.flatMap (profile (depth + 1)) = d.children.flatMap (profile (depth + 1)) := by
  have hi : n.children[i]?.map (profile depth) = m.children[i]?.map (profile depth) := by
    rw [← List.getElem?_map, h, List.getElem?_map]
  cases hc : n.children[i]? with
  | none =>
    rw [hc, Option.map_none, eq_comm, Option.map_eq_none_iff] at hi
    exact Or.inl ⟨rfl, hi⟩
  | some c =>
    rw [hc, Option.map_some, eq_comm, Option.map_eq_some_iff] at hi
    obtain ⟨d, hd, hprofile⟩ := hi
    rw [profile_eq, profile_eq depth c] at hprofile
    obtain ⟨htag, hbelow⟩ := List.cons.inj hprofile
    exact Or.inr ⟨c, d, rfl, hd, (congrArg Prod.snd htag).symm, hbelow.symm⟩

/-- The profiles of the children of a node tell the tags of the nodes at all paths below it. -/
theorem tag_follow?_eq {n m : Node} {depth : Nat}
    (h : n.children.flatMap (profile depth) = m.children.flatMap (profile depth)) (i : Nat)
    (path : List Nat) :
    (n.follow? (i :: path)).map tag = (m.follow? (i :: path)).map tag := by
  induction path generalizing n m depth i with
  | nil =>
    rcases getElem?_children_cases (map_profile_eq h) i with ⟨hn, hm⟩ | ⟨c, d, hc, hd, htag, -⟩
    · rw [follow?, follow?, hn, hm]
    · rw [follow?_cons hc, follow?_cons hd, follow?_nil, follow?_nil, Option.map_some, htag,
        Option.map_some]
  | cons j path ih =>
    rcases getElem?_children_cases (map_profile_eq h) i with ⟨hn, hm⟩ | ⟨c, d, hc, hd, -, hbelow⟩
    · rw [follow?, follow?, hn, hm]
    · rw [follow?_cons hc, follow?_cons hd]
      exact ih hbelow j

end AccessPolicy.Node
