import Mathlib
import MakeTree.Proofs.Nest.Written
import MakeTree.Proofs.TreeGrammar

/-!
Searching a tree for the assignments to a variable (`parse_findAssignments`). They come in the order
of the text, each once, since no assignment stands in another one. The search compares the name as
it is written, so that a name with something passed over in it is not found by what it reads.
-/

namespace MakeTree

namespace Tree

/-- A leaf that is no token: a continuation or a skipped character. -/
def isPassed : Tree → Bool
  | leaf .continuation _ => true
  | leaf .skipped _ => true
  | _ => false

/-- No tree with `q` stands in another one. -/
def Unnested (q : Tree → Bool) (t : Tree) : Prop :=
  ∀ k us, Subtree (.node k us) t → q (.node k us) = true →
    ∀ u ∈ us, ∀ s, Subtree s u → q s = false

theorem Unnested.child {q : Tree → Bool} {k : NodeKind} {us : List Tree}
    (h : Unnested q (.node k us)) : ∀ u ∈ us, Unnested q u :=
  fun _ hu j vs hs => h j vs (.child hu hs)

mutual

theorem Unnested.pairwise_placed {q : Tree → Bool} {t : Tree} (h : Unnested q t)
    (depth start : Nat) :
    ((t.placed depth start).filter (q ·.tree)).Pairwise (·.stop ≤ ·.start) := by
  match t with
  | leaf k s =>
    rw [placed, List.filter_cons]
    split
    · exact List.pairwise_singleton _ _
    · exact .nil
  | node k ts =>
    rw [placed, List.filter_cons]
    split
    · next hq =>
      have hnone : (placedOf (depth + 1) start ts).filter (q ·.tree) = [] := by
        refine List.filter_eq_nil_iff.2 fun p hp => ?_
        obtain ⟨u, hu, hs⟩ := subtree_of_placedOf hp
        rw [h k ts (.refl _) hq u hu _ hs]
        exact Bool.false_ne_true
      rw [hnone]
      exact List.pairwise_singleton _ _
    · exact pairwise_placedOf h.child (depth + 1) start

theorem pairwise_placedOf {q : Tree → Bool} {ts : List Tree} (h : ∀ t ∈ ts, Unnested q t)
    (depth start : Nat) :
    ((placedOf depth start ts).filter (q ·.tree)).Pairwise (·.stop ≤ ·.start) := by
  match ts with
  | [] => exact .nil
  | t :: ts =>
    rw [placedOf, List.filter_append, List.pairwise_append]
    refine ⟨(h t List.mem_cons_self).pairwise_placed depth start,
      pairwise_placedOf (fun u hu => h u (List.mem_cons_of_mem t hu)) depth _, ?_⟩
    intro p hp p' hp'
    have := placed_within (List.mem_filter.1 hp).1
    have := placedOf_within (List.mem_filter.1 hp').1
    omega

end

theorem cast?_eq_some {k : NodeKind} {t : Tree} {n : Node k} (h : t.cast? k = some n) :
    t = n.tree := by
  cases t with
  | leaf => cases h
  | node j ts =>
    rw [cast?] at h
    split at h
    · next hj =>
      cases h
      rw [hj]
      rfl
    · cases h

theorem cast?_tree {k : NodeKind} (n : Node k) : n.tree.cast? k = some n := if_pos rfl

theorem length_textOf_filter {q : Tree → Bool} {ts : List Tree} {t : Tree} (ht : t ∈ ts)
    (hq : q t = false) (hne : t.text ≠ []) :
    (textOf (ts.filter q)).length < (textOf ts).length := by
  have hle (us : List Tree) : (textOf (us.filter q)).length ≤ (textOf us).length := by
    rw [textOf_eq, textOf_eq, List.flatMap_def, List.flatMap_def]
    exact ((us.filter_sublist.map text).flatten).length_le
  obtain ⟨us, vs, rfl⟩ := List.append_of_mem ht
  have hlen := List.length_pos_iff.2 hne
  have hus := hle us
  have hvs := hle vs
  simp only [List.filter_append, List.filter_cons, hq, textOf_append, textOf, List.length_append]
  simp only [Bool.false_eq_true, ↓reduceIte]
  omega

end Tree

open MakeTree.Tree

namespace Fragment

theorem flatMap_prepend (s : Text) (fs : List Fragment) :
    (prepend s fs).flatMap source = s ++ fs.flatMap source := by
  rcases fs with _ | ⟨u | e, fs⟩ <;> simp [prepend, source]

theorem flatMap_addChild {t : Tree} (h : kinds [t] ⊆ [.expansion]) (fs : List Fragment) :
    (addChild t fs).flatMap source =
      textOf ([t].filter (!·.isPassed)) ++ fs.flatMap source := by
  cases t with
  | leaf k s =>
    cases k with
    | continuation => rfl
    | skipped => rfl
    | token j => simp [addChild, flatMap_prepend, isPassed, textOf, Tree.text]
    | quote => simp [addChild, flatMap_prepend, isPassed, textOf, Tree.text]
  | node k ts =>
    obtain rfl : k = .expansion := by simpa using h
    simp [addChild, cast?, source, isPassed, textOf, Node.text, Node.tree]

theorem flatMap_foldr {ts : List Tree} (h : kinds ts ⊆ [.expansion]) :
    (ts.foldr addChild []).flatMap source = textOf (ts.filter (!·.isPassed)) := by
  induction ts with
  | nil => rfl
  | cons t ts ih =>
    rw [← List.singleton_append, kinds_append, List.append_subset] at h
    rw [List.foldr_cons, flatMap_addChild h.1, ih h.2, ← textOf_append, ← List.filter_append]
    rfl

end Fragment

namespace Node

/-- What an expression reads: its text without what was passed over. -/
def logicalText (e : Expression) : Text := e.fragments.flatMap Fragment.source

/-- Something was passed over between the pieces of the expression. -/
def PassesOver (e : Expression) : Prop := ∃ t ∈ e.children, t.isPassed = true

variable {e : Expression}

theorem logicalText_eq (h : e.nodeKinds ⊆ [.expansion]) :
    e.logicalText = textOf (e.children.filter (!·.isPassed)) := Fragment.flatMap_foldr h

theorem logicalText_of_not_passesOver (h : e.nodeKinds ⊆ [.expansion]) (hp : ¬ e.PassesOver) :
    e.logicalText = e.text := by
  rw [logicalText_eq h, List.filter_eq_self.2]
  · rfl
  · intro t ht
    simp only [Bool.not_eq_true', Bool.eq_false_iff]
    exact fun hs => hp ⟨t, ht, hs⟩

theorem logicalText_of_passesOver (h : e.nodeKinds ⊆ [.expansion]) {c : Char}
    (hw : Written c e.children) (hp : e.PassesOver) : e.logicalText ≠ e.text := by
  obtain ⟨t, ht, hs⟩ := hp
  have hne : t.text ≠ [] := by
    cases t with
    | node => cases hs
    | leaf k s =>
      obtain ⟨us, vs, he⟩ := List.append_of_mem ht
      rw [he, ← List.singleton_append, Written.append_iff, Written.append_iff,
        Written.leaf_iff] at hw
      have hw := hw.2.1
      cases k with
      | token => cases hs
      | quote => cases hs
      | continuation =>
        obtain ⟨b, -, rfl⟩ := hw
        exact List.cons_ne_nil _ _
      | skipped =>
        obtain ⟨d, -, rfl⟩ := hw
        exact List.cons_ne_nil _ _
  intro he
  have hlt := length_textOf_filter (q := (!·.isPassed)) ht (by simp [hs]) hne
  rw [← logicalText_eq h, he] at hlt
  exact lt_irrefl _ hlt

end Node

theorem Node.mem_of_subject? {k : NodeKind} {n : Node k} {e : Expression}
    (h : n.subject? = some e) : e.tree ∈ n.children := by
  have hm := List.mem_of_mem_head? h
  rw [nodes_eq] at hm
  exact mem_nodesOf.1 (NodeKind.mem_pick.1 hm)

theorem Node.Named.byteSize_pos {k : NodeKind} {n : Node k} (h : n.Named) :
    0 < n.tree.text.byteSize := by
  obtain ⟨e, he, hne⟩ := h
  obtain ⟨us, vs, hu⟩ := List.append_of_mem (mem_of_subject? he)
  have ht : n.tree.text = textOf us ++ (e.text ++ textOf vs) := by
    show textOf n.children = _
    rw [hu, textOf_append]
    rfl
  have := Text.byteSize_pos hne
  rw [ht, Text.byteSize_append, Text.byteSize_append]
  omega

/-- The tree is an assignment to the variable. -/
def Tree.assigns (name : Text) (t : Tree) : Bool :=
  (t.cast? .assignment).any fun a => a.subject?.any fun e => e.isLiteral && e.text == name

theorem Tree.findAssignments_eq (t : Tree) (name : Text) :
    (t.findAssignments name).map Node.tree =
      (t.subtrees.filter (·.tree.assigns name)).map Placed.tree := by
  rw [findAssignments]
  induction t.subtrees with
  | nil => rfl
  | cons p ps ih =>
    cases hp : p.tree.cast? .assignment with
    | none =>
      have hn : p.tree.assigns name = false := by rw [assigns, hp]; rfl
      rw [List.filterMap_cons_none (f := fun p : Placed => p.tree.cast? .assignment) hp,
        List.filter_cons_of_neg (by simp [hn]), ih]
    | some a =>
      have ha : p.tree.assigns name =
          a.subject?.any fun e => e.isLiteral && e.text == name := by rw [assigns, hp]; rfl
      rw [List.filterMap_cons_some (f := fun p : Placed => p.tree.cast? .assignment) hp,
        List.filter_cons, List.filter_cons, ← ha]
      split
      · rw [List.map_cons, List.map_cons, ih, ← cast?_eq_some hp]
      · exact ih

theorem Tree.assigns_tree {a : Assignment} {e : Expression} (h : a.subject? = some e)
    (name : Text) : a.tree.assigns name = true ↔ e.isLiteral = true ∧ e.text = name := by
  rw [assigns, cast?_tree, Option.any_some, h, Option.any_some, Bool.and_eq_true, beq_iff_eq]

namespace Tree

theorem exists_of_assigns {name : Text} {t : Tree} (h : t.assigns name = true) :
    ∃ a : Assignment, t = a.tree := by
  cases hc : t.cast? .assignment with
  | none =>
    rw [assigns, hc] at h
    cases h
  | some a => exact ⟨a, cast?_eq_some hc⟩

theorem Conforming.unnested {t : Tree} (h : Conforming [t]) (name : Text) :
    Unnested (assigns name) t := by
  intro k us hs hk u hu s hsu
  obtain ⟨⟨ts⟩, ha⟩ := exists_of_assigns hk
  cases ha
  rw [Bool.eq_false_iff]
  intro hs'
  obtain ⟨b, rfl⟩ := exists_of_assigns hs'
  have hb := h.inner ⟨t, List.mem_cons_self, hs⟩ (by decide) hsu hu rfl
  exact absurd hb (by decide)

end Tree

/-- The search for a variable finds assignments in the order of the text, each ending before the
next one begins: those with a name that holds no expansion and is written as the variable. So it is
with what the name reads if nothing is passed over in the name, and an assignment is not found by
what its name reads otherwise. -/
theorem parse_findAssignments {text : Text} {options : Options} {t : Tree}
    (h : (parse text options).result = .ok t) (name : Text) : ∃ ps : List Placed,
      ps.Sublist t.subtrees ∧ ps.Pairwise (·.stop ≤ ·.start) ∧ (∀ p ∈ ps, p.start < p.stop) ∧
      (t.findAssignments name).map Node.tree = ps.map Placed.tree ∧
      ∀ p ∈ t.subtrees, ∀ a : Assignment, p.tree = a.tree → ∃ e, a.subject? = some e ∧
        (p ∈ ps ↔ e.isLiteral = true ∧ e.text = name) ∧
        (¬ e.PassesOver → (p ∈ ps ↔ e.isLiteral = true ∧ e.logicalText = name)) ∧
        (e.PassesOver → p ∈ ps → e.logicalText ≠ name) := by
  rw [parse_result_start] at h
  have hc := Lexer.result_conforming h
  have named {p : Placed} {a : Assignment} (hp : p ∈ t.subtrees) (ha : p.tree = a.tree) :
      a.Named := by
    have hs : Subtree a.tree t := ha ▸ subtree_of_placed hp
    exact (hc .assignment t List.mem_cons_self a.children hs).1
  refine ⟨t.subtrees.filter (·.tree.assigns name), List.filter_sublist,
    (hc.unnested name).pairwise_placed 0 0, fun p hm => ?_, t.findAssignments_eq name, ?_⟩
  · obtain ⟨hp, hq⟩ := List.mem_filter.1 hm
    obtain ⟨a, ha⟩ := exists_of_assigns hq
    have := (named hp ha).byteSize_pos
    rw [Placed.stop, ha]
    omega
  intro p hp a ha
  obtain ⟨e, he, -⟩ := named hp ha
  have hmem : p ∈ t.subtrees.filter (·.tree.assigns name) ↔ e.isLiteral = true ∧ e.text = name := by
    rw [List.mem_filter, ha, assigns_tree he]
    exact and_iff_right hp
  have hsube : Subtree e.tree t :=
    .trans (.child (Node.mem_of_subject? he) (.refl _)) (ha ▸ subtree_of_placed hp)
  have hk : e.nodeKinds ⊆ [.expansion] := hc .expression t List.mem_cons_self e.children hsube
  refine ⟨e, he, hmem, fun hp => ?_, fun hp hm => ?_⟩
  · rw [hmem, Node.logicalText_of_not_passesOver hk hp]
  · rw [← (hmem.1 hm).2]
    exact Node.logicalText_of_passesOver hk (Lexer.result_written h hsube) hp

/-- An assignment behind a continuation, which its name holds. -/
theorem parse_continuedName : ∃ t, (parse "\\\na=\n".toList {}).result = .ok t ∧
    t.findAssignments ['a'] = [] ∧
    (⟨1, 0, .node .assignment [.node .expression [.leaf .continuation ['\\', '\n'],
      .leaf (.token .plainText) ['a']], .leaf (.token .assignOp) ['='], .node .expression [],
      .leaf (.token .lineBreak) ['\n']]⟩ : Placed) ∈ t.subtrees := by
  have h : (parse "\\\na=\n".toList {}).result = .ok (.node .root [.node .assignment
      [.node .expression [.leaf .continuation ['\\', '\n'], .leaf (.token .plainText) ['a']],
        .leaf (.token .assignOp) ['='], .node .expression [],
        .leaf (.token .lineBreak) ['\n']]]) := by cbv
  exact ⟨_, h, by rfl, List.mem_of_getElem? (i := 1) rfl⟩

/-- With a continuation in front of the name. -/
theorem parse_findAssignments_continued : ∃ (t : Tree) (ps : List Placed),
    (parse "\\\na=\n".toList {}).result = .ok t ∧
      ps.Sublist t.subtrees ∧ ps.Pairwise (·.stop ≤ ·.start) ∧ (∀ p ∈ ps, p.start < p.stop) ∧
      (t.findAssignments ['a']).map Node.tree = ps.map Placed.tree ∧
      ∀ p ∈ t.subtrees, ∀ a : Assignment, p.tree = a.tree → ∃ e, a.subject? = some e ∧
        (p ∈ ps ↔ e.isLiteral = true ∧ e.text = ['a']) ∧
        (¬ e.PassesOver → (p ∈ ps ↔ e.isLiteral = true ∧ e.logicalText = ['a'])) ∧
        (e.PassesOver → p ∈ ps → e.logicalText ≠ ['a']) := by
  obtain ⟨t, h, -⟩ := parse_continuedName
  obtain ⟨ps, hps⟩ := parse_findAssignments h ['a']
  exact ⟨t, ps, h, hps⟩

/-- Not every assignment is found by what its name reads: the one behind a continuation is not. -/
theorem parse_assignment_missed : ¬ ∀ (text : Text) (options : Options) (t : Tree) (name : Text)
    (p : Placed) (a : Assignment) (e : Expression), (parse text options).result = .ok t →
      p ∈ t.subtrees → p.tree = a.tree → a.subject? = some e →
        (a ∈ t.findAssignments name ↔ e.isLiteral = true ∧ e.logicalText = name) := by
  intro h
  obtain ⟨t, ht, hnone, hp⟩ := parse_continuedName
  have hmem := (h _ _ t ['a'] _ ⟨_⟩ _ ht hp rfl rfl).2 ⟨rfl, rfl⟩
  rw [hnone] at hmem
  cases hmem

end MakeTree
