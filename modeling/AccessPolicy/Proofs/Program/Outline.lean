import AccessPolicy.Program.Outline
import AccessPolicy.Proofs.Program.Strings
import AccessPolicy.Proofs.Text.Lines

/-!
# Outlines

An outline is the walk in text. The line of a node at a path shows the cells of its ancestors, its
connector, and its type, label and line (`Node.lineAt`), and the lines of an outline are those of
the nodes below the root, in the order of the walk (`Program.outlineLines_eq`).

Labels are cut and say what they like, but lines can still be read (`Node.reading_lineAt`). The
depth is told by where the connector starts, as no cell has one of its characters. The name of the
type goes up to the first colon after the connector, and the number of the line is the digits at the
end. So an outline shows the whole tree, up to what is in the labels and the line of the root
(`Program.outline_faithful`).
-/

namespace AccessPolicy

variable {α : Type}

theorem withLast_eq_zipIdx (as : List α) (k : Nat) :
    withLast as = (as.zipIdx k).map fun v => (v.1, v.2 + 1 == k + as.length) := by
  induction as generalizing k with
  | nil => rfl
  | cons a as ih =>
    cases as with
    | nil => simp [withLast]
    | cons b rest =>
      have hlength : k + 1 + (b :: rest).length = k + (a :: b :: rest).length := by
        simp only [List.length_cons]
        omega
      rw [withLast, ih (k + 1), hlength]
      simp

theorem withLast_eq (as : List α) :
    withLast as = as.zipIdx.map fun v => (v.1, v.2 + 1 == as.length) := by
  simpa using withLast_eq_zipIdx as 0

theorem map_withLast {β : Type} (f : α → β) (as : List α) :
    withLast (as.map f) = (withLast as).map (Prod.map f id) := by
  rw [withLast_eq, withLast_eq, List.zipIdx_map, List.map_map, List.map_map, List.length_map]
  rfl

namespace Node

/-! ## Lines -/

/-- Whether the node at a path is the last child of its parent. -/
def isLastAt (root : Node) (path : List Nat) : Bool :=
  match root.follow? path.dropLast, path.getLast? with
  | some parent, some i => i + 1 == parent.children.length
  | _, _ => false

/-- The cells in front of the node at a path, one for each ancestor below the root. -/
def cellsAt (root : Node) (path : List Nat) : String :=
  String.join ((List.range (path.length - 1)).map fun j =>
    if root.isLastAt (path.take (j + 1)) then "  " else "│ ")

/-- The label of a node, cut to 40 characters if it has more. -/
def shownLabel (n : Node) : String :=
  if 40 < n.label.length then String.ofList (n.label.toList.take 40) ++ "..." else n.label

/-- The line of an outline that shows the node at a path. -/
def lineAt (root : Node) (path : List Nat) (n : Node) : String :=
  root.cellsAt path ++ (if root.isLastAt path then "└─" else "├─") ++ " " ++ n.type.name ++ ": " ++
    n.shownLabel ++ " (line " ++ n.line.repr ++ ")"

variable {n c m : Node} {i : Nat} {path : List Nat}

theorem isLastAt_singleton (n : Node) (i : Nat) : n.isLastAt [i] = (i + 1 == n.children.length) :=
  rfl

theorem isLastAt_cons (hc : n.children[i]? = some c) (hpath : path ≠ []) :
    n.isLastAt (i :: path) = c.isLastAt path := by
  rw [isLastAt, isLastAt, List.dropLast_cons_of_ne_nil hpath, List.getLast?_cons_of_ne_nil hpath,
    follow?_cons hc]

theorem cellsAt_singleton (n : Node) (i : Nat) : n.cellsAt [i] = "" :=
  rfl

theorem cellsAt_cons (hc : n.children[i]? = some c) (hpath : path ≠ []) :
    n.cellsAt (i :: path) = cell (i + 1 == n.children.length) ++ c.cellsAt path := by
  obtain ⟨j, rest, rfl⟩ := List.exists_cons_of_ne_nil hpath
  have hbelow : ∀ k, n.isLastAt ((i :: j :: rest).take (k + 1 + 1)) =
      c.isLastAt ((j :: rest).take (k + 1)) := fun k => isLastAt_cons hc (by simp)
  have hcount : (i :: j :: rest).length - 1 = (j :: rest).length - 1 + 1 := by simp
  rw [cellsAt, cellsAt, hcount, List.range_succ_eq_map, List.map_cons, List.map_map,
    String.join_cons]
  congr 2
  exact List.map_congr_left fun k _ => by rw [Function.comp_apply, hbelow]

theorem outline_eq (margin : String) (last : Bool) (n : Node) : n.outline margin last =
    outlineLine margin last n ::
      (withLast n.children).flatMap fun v => v.1.outline (margin ++ cell last) v.2 := by
  rw [outline]
  conv_rhs => rw [← List.attach_map_subtype_val n.children, map_withLast, List.flatMap_map]
  rfl

theorem lineAt_singleton (n c : Node) (i : Nat) :
    n.lineAt [i] c = outlineLine "" (i + 1 == n.children.length) c := by
  rw [lineAt, cellsAt_singleton, isLastAt_singleton]
  rfl

theorem outlineLine_eq (margin : String) (last : Bool) (n : Node) :
    outlineLine margin last n = margin ++ outlineLine "" last n := by
  simp [outlineLine, String.append_assoc]

theorem lineAt_cons (hc : n.children[i]? = some c) (hpath : path ≠ []) (m : Node) :
    n.lineAt (i :: path) m = cell (i + 1 == n.children.length) ++ c.lineAt path m := by
  simp only [lineAt, cellsAt_cons hc hpath, isLastAt_cons hc hpath, String.append_assoc]

/-- The lines below a node are those of its visits. -/
theorem outline_children (margin : String) (n : Node) :
    ((withLast n.children).flatMap fun v => v.1.outline margin v.2) =
      n.visitsBelow.map fun v => margin ++ n.lineAt v.1 v.2 := by
  induction n using walk.induct generalizing margin with
  | case1 n ih =>
    -- A child puts its cell behind the margin, and that is the first cell at the paths through it.
    have hchild : ∀ v ∈ n.children.zipIdx, v.1.outline margin (v.2 + 1 == n.children.length) =
        (v.1.visits.map (Prod.map (v.2 :: ·) id)).map fun w => margin ++ n.lineAt w.1 w.2 := by
      rintro ⟨c, i⟩ hv
      have hc : n.children[i]? = some c := List.mk_mem_zipIdx_iff_getElem?.mp hv
      rw [outline_eq, ih c (List.mem_of_getElem? hc), visits_eq, List.map_cons, List.map_cons,
        List.map_map, outlineLine_eq, ← lineAt_singleton]
      congr 1
      refine List.map_congr_left fun w hw => ?_
      obtain ⟨path, m⟩ := w
      obtain ⟨-, -, -, -, -, rfl⟩ := mem_visitsBelow.mp hw
      rw [Function.comp_apply, Prod.map_apply, lineAt_cons hc (List.cons_ne_nil _ _),
        ← String.append_assoc]
      rfl
    rw [withLast_eq, List.flatMap_map, visitsBelow, List.map_flatMap]
    exact List.flatMap_congr hchild

end Node

namespace Program

/-- The lines of an outline are those of the nodes below the root, in the order of the walk. -/
theorem outlineLines_eq (p : Program) : p.outlineLines =
    (Node.program p).visitsBelow.map fun v => (Node.program p).lineAt v.1 v.2 := by
  refine (Node.outline_children "" (Node.program p)).trans (List.map_congr_left fun v _ => ?_)
  exact String.empty_append

/-- A bar runs down from a node with younger siblings as far as there are nodes below it. -/
example : (ofSource "ROLE A \x7bcan: *\x7d DENY action: x ON resource: B\nIF (c > 9)").map outline =
    .ok (String.join [
      "├─ RoleDef: ROLE A (line 1)\n",
      "│ └─ Wildcard: * (line 1)\n",
      "└─ PolicyDef: DENY ON B (line 1)\n",
      "  ├─ Identifier: x (line 1)\n",
      "  └─ Comparison: > (line 2)\n",
      "    ├─ Identifier: c (line 2)\n",
      "    └─ Number: 9 (line 2)\n"]) := by
  decide +kernel

end Program

/-! ## Reading lines -/

/-- Whether a connector starts with the character. -/
def startsConnector (c : Char) : Bool :=
  c = '└' || c = '├'

/-- What is read off a line : the depth of the node, the name of its type and the digits of its
line. -/
def reading (line : List Char) : Nat × List Char × List Char :=
  ((line.takeWhile fun c => !startsConnector c).length / 2 + 1,
    ((line.dropWhile fun c => !startsConnector c).drop 3).takeWhile (· ≠ ':'),
    ((line.reverse.drop 1).takeWhile Char.isDigit).reverse)

theorem NodeType.not_mem_name (t : NodeType) : ':' ∉ t.name.toList ∧ '\n' ∉ t.name.toList := by
  cases t <;> simp [name]

theorem NodeType.name_injective : Function.Injective name := fun t u h =>
  Option.some.inj (by rw [← ofName?_name t, h, ofName?_name])

theorem natRepr_injective : Function.Injective Nat.repr := fun n m h => by
  rw [← Nat.ofDigitChars_ten_toDigits (n := n), ← Nat.toList_repr, h, Nat.toList_repr,
    Nat.ofDigitChars_ten_toDigits]

namespace Node

theorem exists_cells (root : Node) (path : List Nat) :
    ∃ lasts : List Bool, lasts.length = path.length - 1 ∧
      (root.cellsAt path).toList = lasts.flatMap fun last => (cell last).toList := by
  refine ⟨(List.range (path.length - 1)).map fun j => root.isLastAt (path.take (j + 1)),
    by simp, ?_⟩
  rw [cellsAt, String.toList_join, List.flatMap_map, List.flatMap_map]
  rfl

theorem length_cellsAt (root : Node) (path : List Nat) :
    (root.cellsAt path).toList.length = 2 * (path.length - 1) := by
  have hcell : ∀ last, (cell last).toList.length = 2 := by decide
  obtain ⟨lasts, hlength, hcells⟩ := exists_cells root path
  simp [hcells, List.length_flatMap, hcell, ← hlength, Nat.mul_comm]

theorem not_mem_cellsAt {root : Node} {path : List Nat} {c : Char}
    (h : c ∈ (root.cellsAt path).toList) : startsConnector c = false ∧ c ≠ '\n' := by
  have hcell : ∀ last, ∀ c ∈ (cell last).toList, startsConnector c = false ∧ c ≠ '\n' := by
    intro last
    cases last <;> simp [cell, startsConnector]
  obtain ⟨lasts, -, hcells⟩ := exists_cells root path
  rw [hcells] at h
  obtain ⟨last, -, hc⟩ := List.mem_flatMap.mp h
  exact hcell last c hc

theorem newline_not_mem_shownLabel {n : Node} (h : '\n' ∉ n.label.toList) :
    '\n' ∉ n.shownLabel.toList := by
  unfold shownLabel
  split
  · have hcut : '\n' ∉ n.label.toList.take 40 := fun hmem => h (List.mem_of_mem_take hmem)
    simpa using hcut
  · exact h

theorem newline_not_mem_lineAt (root : Node) (path : List Nat) {n : Node}
    (h : '\n' ∉ n.label.toList) : '\n' ∉ (root.lineAt path n).toList := by
  have hcells : '\n' ∉ (root.cellsAt path).toList := fun hmem => (not_mem_cellsAt hmem).2 rfl
  have hname := n.type.not_mem_name.2
  have hlabel := newline_not_mem_shownLabel h
  have hnumber := newline_not_mem_natRepr n.line
  rw [lineAt]
  split <;> simp_all

/-- How a line starts, up to the end of the type. -/
theorem exists_toList_lineAt (root : Node) (path : List Nat) (n : Node) :
    ∃ mark rest, startsConnector mark = true ∧ (root.lineAt path n).toList =
      (root.cellsAt path).toList ++ mark :: '─' :: ' ' :: (n.type.name.toList ++ ':' :: rest) := by
  refine ⟨if root.isLastAt path then '└' else '├',
    ' ' :: n.shownLabel.toList ++ (" (line " ++ n.line.repr ++ ")").toList, by split <;> rfl, ?_⟩
  rw [lineAt]
  split <;> simp

/-- How a line ends, whatever the label says. -/
theorem exists_toList_lineAt_number (root : Node) (path : List Nat) (n : Node) :
    ∃ before, (root.lineAt path n).toList = before ++ ' ' :: (n.line.repr.toList ++ [')']) :=
  ⟨(root.cellsAt path ++ (if root.isLastAt path then "└─" else "├─") ++ " " ++ n.type.name ++
    ": " ++ n.shownLabel ++ " (line").toList, by simp [lineAt]⟩

/-- The depth, the type and the line of a node can be read off its line. -/
theorem reading_lineAt (root : Node) {path : List Nat} (hpath : path ≠ []) (n : Node) :
    reading (root.lineAt path n).toList =
      (path.length, n.type.name.toList, n.line.repr.toList) := by
  obtain ⟨mark, rest, hmark, hline⟩ := exists_toList_lineAt root path n
  obtain ⟨before, hend⟩ := exists_toList_lineAt_number root path n
  have hcells : ∀ c ∈ (root.cellsAt path).toList, (!startsConnector c) = true :=
    fun c hc => by rw [(not_mem_cellsAt hc).1]; rfl
  have hstart : ∀ cs, ∀ c ∈ (mark :: cs).head?, (!startsConnector c) = false := by simp [hmark]
  have hname : ∀ c ∈ n.type.name.toList, decide (c ≠ ':') = true :=
    fun c hc => decide_eq_true (ne_of_mem_of_not_mem hc n.type.not_mem_name.1)
  have hdigits : ∀ c ∈ n.line.repr.toList.reverse, c.isDigit = true := by
    rw [Nat.toList_repr]
    exact fun c hc => isDigit_of_mem_toDigits c (List.mem_reverse.mp hc)
  have hdepth : 2 * (path.length - 1) / 2 + 1 = path.length := by
    have := List.length_pos_of_ne_nil hpath
    omega
  have hnumber : ((root.lineAt path n).toList.reverse.drop 1).takeWhile Char.isDigit =
      n.line.repr.toList.reverse := by
    have hreverse : (root.lineAt path n).toList.reverse.drop 1 =
        n.line.repr.toList.reverse ++ ' ' :: before.reverse := by simp [hend]
    rw [hreverse]
    exact takeWhile_append_of_head? hdigits (by simp)
  rw [reading, hnumber, hline, takeWhile_append_of_head? hcells (hstart _),
    dropWhile_append_of_head? hcells (hstart _), length_cellsAt, hdepth, List.drop_succ_cons,
    List.drop_succ_cons, List.drop_succ_cons, List.drop_zero,
    takeWhile_append_of_head? hname (by simp), List.reverse_reverse]

end Node

/-! ## Outlines -/

namespace Program

/-- No line of an unbroken program is broken. -/
theorem newline_not_mem_lineAt {p : Program} (hp : p.Unbroken) {v : List Nat × Node}
    (hv : v ∈ (Node.program p).visitsBelow) :
    '\n' ∉ ((Node.program p).lineAt v.1 v.2).toList := by
  have hn : v.2.Unbroken :=
    Node.Unbroken.of_follow? (n := .program p) hp (Node.mem_visitsBelow_iff_follow?.mp hv).2
  exact Node.newline_not_mem_lineAt _ v.1 hn.not_mem_label

theorem newline_not_mem_outlineLines {p : Program} (hp : p.Unbroken) :
    ∀ line ∈ p.outlineLines, '\n' ∉ line.toList := by
  rw [outlineLines_eq]
  exact List.forall_mem_map.mpr fun v hv => newline_not_mem_lineAt hp hv

theorem outline_eq_join (p : Program) : p.outline = String.join
    ((Node.program p).visitsBelow.map fun v => (Node.program p).lineAt v.1 v.2 ++ "\n") := by
  rw [outline, outlineLines_eq, List.map_map]
  rfl

theorem map_reading_outlineLines (p : Program) :
    p.outlineLines.map (fun line => reading line.toList) =
      ((Node.program p).children.flatMap (Node.profile 1)).map fun v =>
        (v.1, v.2.1.name.toList, v.2.2.repr.toList) := by
  rw [outlineLines_eq, Node.flatMap_profile_children 0, List.map_map, List.map_map]
  refine List.map_congr_left fun ⟨path, n⟩ hv => ?_
  have hpath := (Node.mem_visitsBelow_iff_follow?.mp hv).1
  simp only [Function.comp_apply, Node.reading_lineAt _ hpath, Nat.zero_add, Node.tag]

/-- The outlines of unbroken programs show their profiles. -/
theorem profile_eq_of_outline_eq {p q : Program} (hp : p.Unbroken) (hq : q.Unbroken)
    (h : p.outline = q.outline) : (Node.program p).children.flatMap (Node.profile 1) =
      (Node.program q).children.flatMap (Node.profile 1) := by
  have hlines : p.outlineLines = q.outlineLines :=
    join_lines_inj (newline_not_mem_outlineLines hp) (newline_not_mem_outlineLines hq) h
  have hinjective : Function.Injective fun v : Nat × NodeType × Nat =>
      (v.1, v.2.1.name.toList, v.2.2.repr.toList) := by
    rintro ⟨d, t, k⟩ ⟨e, u, l⟩ heq
    obtain ⟨rfl, hname, hnumber⟩ : d = e ∧ _ ∧ _ := by simpa only [Prod.mk.injEq] using heq
    rw [NodeType.name_injective (String.toList_inj.mp hname),
      natRepr_injective (String.toList_inj.mp hnumber)]
  refine List.map_injective_iff.mpr hinjective ?_
  rw [← map_reading_outlineLines, ← map_reading_outlineLines, hlines]

theorem line_ofDeclarations (ds : List Declaration) : (ofDeclarations ds).line =
    (((Node.program (ofDeclarations ds)).follow? [0]).map Node.line).getD 0 := by
  cases ds with
  | nil => rfl
  | cons d ds => cases d <;> rfl

/-- Programs on the lines of their first declarations are on the same line if their profiles are the
same. -/
theorem line_ofDeclarations_eq {ds es : List Declaration}
    (h : (Node.program (ofDeclarations ds)).children.flatMap (Node.profile 1) =
      (Node.program (ofDeclarations es)).children.flatMap (Node.profile 1)) :
    (ofDeclarations ds).line = (ofDeclarations es).line := by
  have htag := congrArg (Option.map Prod.snd) (Node.tag_follow?_eq h 0 [])
  rw [Option.map_map, Option.map_map] at htag
  have hline : ((Node.program (ofDeclarations ds)).follow? [0]).map Node.line =
      ((Node.program (ofDeclarations es)).follow? [0]).map Node.line := htag
  rw [line_ofDeclarations, hline, ← line_ofDeclarations]

/-- The outline of a program whose strings have no line feeds, such as any that is parsed from a
text, has one line for each node below the root, in the order of the walk, and the line of a node
shows where it is and what it says. Two such programs with the same outline have the same nodes, up
to what is in their labels : at each path below the root there is a node of the same type and line
in both, or in none. The root has no line in an outline, so the lines that programs are on
themselves can be told only if these are the lines of their first declarations. -/
theorem outline_faithful :
    (∀ source p, ofSource source = .ok p → p.Unbroken) ∧
      ∀ p : Program, p.Unbroken →
        (∃ visits : List (List Nat × Node),
          visits.map Prod.snd = (Node.program p).walk.tail ∧
          (∀ path n, (path, n) ∈ visits ↔ path ≠ [] ∧ (Node.program p).follow? path = some n) ∧
          visits.Pairwise (fun v w => v.1 < w.1) ∧
          p.outline = String.join (visits.map fun v => (Node.program p).lineAt v.1 v.2 ++ "\n") ∧
          ∀ v ∈ visits, '\n' ∉ ((Node.program p).lineAt v.1 v.2).toList) ∧
        ∀ q : Program, q.Unbroken → q.outline = p.outline →
          (∀ path ≠ [], ((Node.program q).follow? path).map Node.tag =
            ((Node.program p).follow? path).map Node.tag) ∧
          (q = ofDeclarations q.declarations → p = ofDeclarations p.declarations →
            q.line = p.line) := by
  refine ⟨fun source p h => unbroken_of_ofSource h, fun p hp => ⟨?_, fun q hq h => ?_⟩⟩
  · have hwalk := (Node.program p).map_snd_visits
    have hordered := (Node.program p).pairwise_visits
    rw [Node.visits_eq] at hwalk hordered
    exact ⟨(Node.program p).visitsBelow, congrArg List.tail hwalk,
      fun path n => Node.mem_visitsBelow_iff_follow?, (List.pairwise_cons.mp hordered).2,
      outline_eq_join p, fun v hv => newline_not_mem_lineAt hp hv⟩
  · have hprofile := profile_eq_of_outline_eq hq hp h
    refine ⟨fun path hpath => ?_, fun hq hp => ?_⟩
    · obtain ⟨i, path, rfl⟩ := List.exists_cons_of_ne_nil hpath
      exact Node.tag_follow?_eq hprofile i path
    · rw [hq, hp] at hprofile ⊢
      exact line_ofDeclarations_eq hprofile

/-- The line that a program is on is not shown. -/
example (ds : List Declaration) (m n : Nat) : outline ⟨ds, m⟩ = outline ⟨ds, n⟩ :=
  rfl

/-- A role and a resource at a given path. -/
def stored (path : String) : Program :=
  ofDeclarations [
    .role { name := "A", actions := .named (.bare "x" 1) [.bare "y" 1], line := 1 },
    .resource { name := "B", path := path, line := 2 }]

/-- Two paths that differ only in what is cut off. -/
theorem outline_faithful_cut :
    ofSource "ROLE A \x7bcan: x, y\x7d\nRESOURCE B \x7bpath: \"/srv/store/customers/1\"\x7d" =
        .ok (stored "/srv/store/customers/1") ∧
      (stored "/srv/store/customers/2").Unbroken ∧
      (stored "/srv/store/customers/2").outline = (stored "/srv/store/customers/1").outline ∧
      (∃ visits : List (List Nat × Node),
        visits.map Prod.snd = (Node.program (stored "/srv/store/customers/1")).walk.tail ∧
        (stored "/srv/store/customers/1").outline = String.join (visits.map fun v =>
          (Node.program (stored "/srv/store/customers/1")).lineAt v.1 v.2 ++ "\n")) ∧
      (∀ path ≠ [], ((Node.program (stored "/srv/store/customers/2")).follow? path).map Node.tag =
        ((Node.program (stored "/srv/store/customers/1")).follow? path).map Node.tag) ∧
      (stored "/srv/store/customers/2").line = (stored "/srv/store/customers/1").line := by
  have hsource : ofSource
      "ROLE A \x7bcan: x, y\x7d\nRESOURCE B \x7bpath: \"/srv/store/customers/1\"\x7d" =
        .ok (stored "/srv/store/customers/1") := by decide +kernel
  have hunbroken : (stored "/srv/store/customers/2").Unbroken := by
    rw [Unbroken]
    decide +kernel
  have houtline : (stored "/srv/store/customers/2").outline =
      (stored "/srv/store/customers/1").outline := by decide +kernel
  obtain ⟨⟨visits, hwalk, -, -, hlines, -⟩, hsame⟩ :=
    outline_faithful.2 _ (outline_faithful.1 _ _ hsource)
  obtain ⟨htags, hline⟩ := hsame _ hunbroken houtline
  exact ⟨hsource, hunbroken, houtline, ⟨visits, hwalk, hlines⟩, htags, hline rfl rfl⟩

end Program

end AccessPolicy
