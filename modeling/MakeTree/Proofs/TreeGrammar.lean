import Mathlib
import MakeTree.Proofs.Grammar.BlockBuilds
import MakeTree.Proofs.Nest.Written
import MakeTree.Proofs.Outcome
import MakeTree.Proofs.StatementLocality

/-!
The grammar of trees holds of all that is parsed (`parse_conforms`): whatever a view of a construct
has to find in its node is there. What a node may have in it directly is a matter of its kind
(`Node.Conforms.parts`).
-/

namespace MakeTree

namespace Lexer

variable {text : Text} {c : Char} {strict : Bool} {t : Tree}

theorem sheet_lines (h : (start text c).unclosed? = none) : Sheet [] (start text c).lines where
  here := Line.sound_nil
  below l hl := by
    have hflat := flatten_lines (start text c)
    obtain ⟨us, vs, hsplit⟩ := List.append_of_mem hl
    rw [hsplit, List.flatten_append, List.flatten_cons] at hflat
    have hs : Nest.SoundAll (start text c).nests.1 := soundAll_nests h rfl
    have hends := Nest.commentsEnd_nests (start text c)
    rw [← hflat] at hs hends
    refine ⟨(goodLines h l hl).single, Nest.soundAll_iff.2 fun n hn => ?_, hends.right.left⟩
    exact Nest.soundAll_iff.1 hs n (by simp [hn])
  cut := cut_lines _

theorem yields_statements (h : (start text c).unclosed? = none) :
    Parser.YieldsOver .root [] (start text c).lines (fun _ => [])
      (Parser.Among Context.statements.entries) []
      (Parser.statements (start text c).lines ⟨[], [], []⟩) :=
  Parser.builds_statements (start text c).lines (sheet_lines h) [] []

/-- The tree of a text lays out its nests. -/
theorem result_laid (h : (start text c).result strict = .ok t) : ∃ ts,
    t = .node .root (ts ++ (start text c).nests.2.map Trivia.tree) ∧
      Laid .root (start text c).nests.1 ts ∧ Tree.kinds ts ⊆ Context.statements.entries := by
  rw [result] at h
  cases hr : (start text c).refusal strict with
  | some e =>
    rw [hr] at h
    cases h
  | none =>
    rw [hr, parse_result_eq] at h
    have hy := yields_statements (refusal_eq_none.1 hr).2
    cases hs : Parser.statements (start text c).lines ⟨[], [], []⟩ with
    | error e s =>
      rw [hs] at h
      cases h
    | ok a s =>
      rw [hs] at h hy
      cases h
      obtain ⟨us, ts, hus, hb, hl, -, hu, hk⟩ := hy
      rw [List.nil_append, hu, List.nil_append, List.flatten_nil, List.append_nil,
        flatten_lines] at hus
      rw [List.nil_append] at hb
      subst hus hb
      exact ⟨_, rfl, hl, hk⟩

/-- A text that is no tree is refused for one of its tokens, or for its end. -/
theorem result_blames {e : ParseError} (h : (start text c).result strict = .error (.parse e)) :
    Blames (start text c).nests.1 e := by
  rw [result] at h
  cases hr : (start text c).refusal strict with
  | some e' =>
    rw [hr] at h
    cases h
  | none =>
    rw [hr, parse_result_eq] at h
    have hy := yields_statements (refusal_eq_none.1 hr).2
    cases hs : Parser.statements (start text c).lines ⟨[], [], []⟩ with
    | error e' s =>
      rw [hs] at h hy
      cases h
      rw [← flatten_lines]
      exact hy
    | ok a s =>
      rw [hs] at h
      cases h

theorem result_conforming (h : (start text c).result strict = .ok t) : Tree.Conforming [t] := by
  obtain ⟨ts, rfl, hl, hk⟩ := result_laid h
  refine (hl.conforming.append (.trivia _)).node ?_
  show Tree.kinds (ts ++ _) ⊆ Context.statements.entries
  simpa using hk

theorem result_written (h : (start text c).result strict = .ok t) {k : NodeKind} {us : List Tree}
    (hs : Tree.Subtree (.node k us) t) : Tree.Written c us := by
  obtain ⟨ts, rfl, hl, -⟩ := result_laid h
  have hn : (start text c).nests = ((start text c).nests.1, (start text c).nests.2) := rfl
  obtain ⟨hf, ht⟩ := lexemes_of_nests hn
  have htrailing : Tree.Written c ((start text c).nests.2.map Trivia.tree) := by
    rw [Tree.Written.trivia_iff, ht]
    exact (start text c).seated_lexemes.2
  have hall := (hl.reading.written hf (lexemes_written (.inl rfl))).append htrailing
  exact fun l hm => hall l (hs.leaves_subset hm)

end Lexer

/-- The kinds of the nodes that stand directly in one of the kind. -/
def NodeKind.parts : NodeKind → List NodeKind
  | root => Context.statements.entries
  | branch => Context.statements.entries
  | recipeBranch => recipeItems
  | rule => [targets, assignment, prerequisites, orderOnly] ++ recipeItems
  | conditional => [condition, branch, elseBranch]
  | recipeConditional => [condition, recipeBranch, elseBranch]
  | elseBranch => [branch, conditional, recipeBranch, recipeConditional]
  | expression => [expansion]
  | blankLine => []
  | commentLine => []
  | _ => [expression]

theorem NodeKind.pick_append (k : NodeKind) (us vs : List (NodeKind × List Tree)) :
    k.pick (us ++ vs) = k.pick us ++ k.pick vs := List.filterMap_append

theorem NodeKind.mem_pick {k : NodeKind} {n : Node k} {us : List (NodeKind × List Tree)} :
    n ∈ k.pick us ↔ (k, n.children) ∈ us := by
  rw [pick, List.mem_filterMap]
  constructor
  · rintro ⟨⟨j, vs⟩, hu, he⟩
    split at he
    · next hk =>
      cases he
      exact hk ▸ hu
    · cases he
  · exact fun h => ⟨_, h, if_pos rfl⟩

namespace Node

variable {k : NodeKind}

theorem mem_nodeKinds {n : Node k} {j : NodeKind} {us : List Tree}
    (h : Tree.node j us ∈ n.children) : j ∈ n.nodeKinds :=
  List.mem_map_of_mem (Tree.mem_nodesOf.2 h)

theorem node?_isSome {n : Node k} {j : NodeKind} (h : (n.node? j).isSome = true) :
    j ∈ n.nodeKinds := by
  obtain ⟨m, hm⟩ := Option.isSome_iff_exists.1 h
  have hm := List.mem_of_mem_head? hm
  rw [nodes_eq] at hm
  obtain ⟨u, hu, he⟩ := List.mem_filterMap.1 hm
  split at he
  · next hk => exact List.mem_map.2 ⟨u, hu, hk⟩
  · cases he

theorem node?_eq_none {n : Node k} {j : NodeKind} (h : j ∉ n.nodeKinds) : n.node? j = none :=
  Option.not_isSome_iff_eq_none.1 fun hs => h (node?_isSome hs)

theorem recipeLines_eq_nil {n : Node k} (h : .recipe ∉ n.nodeKinds)
    (h' : .recipeConditional ∉ n.nodeKinds) : n.recipeLines = [] := by
  refine List.filterMap_eq_nil_iff.2 fun t ht => ?_
  unfold RecipeLine.ofTree?
  split
  · exact absurd (mem_nodeKinds ht) h
  · exact absurd (mem_nodeKinds ht) h'
  · rfl

theorem Conforms.parts {n : Node k} (h : n.Conforms) : n.nodeKinds ⊆ k.parts := by
  have among {js : List NodeKind} (hs : n.nodeKinds ⊆ js) (hj : js ⊆ k.parts) :
      n.nodeKinds ⊆ k.parts := List.Subset.trans hs hj
  have exactly {js : List NodeKind} (hs : n.nodeKinds = js) (hj : js ⊆ k.parts) :
      n.nodeKinds ⊆ k.parts := hs ▸ hj
  cases k with
  | root => exact h
  | branch => exact h
  | recipeBranch => exact h
  | expression => exact h
  | blankLine => exact exactly h (List.nil_subset _)
  | commentLine => exact exactly h.1 (List.nil_subset _)
  | assignment =>
    rcases h.2.2 with ⟨-, hk, -⟩ | ⟨-, hk, -⟩
    · exact exactly hk (by decide)
    · exact exactly hk (by decide)
  | definition => exact exactly h.2.2.1 (by decide)
  | rule =>
    rcases h.2 with hk | ⟨lists, items, hk, hl, hi⟩
    · exact exactly hk (by decide)
    · rw [hk]
      refine List.cons_subset.2 ⟨by decide, List.append_subset.2 ⟨?_, ?_⟩⟩
      · exact List.Subset.trans hl.subset (by decide)
      · exact List.Subset.trans hi (by decide)
  | targets => exact h.1.1
  | prerequisites => exact h.1.1
  | orderOnly => exact h.1.1
  | recipe => exact exactly h (by decide)
  | conditional =>
    rcases h.2 with ⟨hk, -⟩ | ⟨hk, -⟩
    · exact exactly hk (by decide)
    · exact exactly hk (by decide)
  | recipeConditional =>
    rcases h.2 with ⟨hk, -⟩ | ⟨hk, -⟩
    · exact exactly hk (by decide)
    · exact exactly hk (by decide)
  | condition =>
    rcases h with hk | hk
    · exact exactly hk (by decide)
    · exact exactly hk (by decide)
  | elseBranch =>
    obtain ⟨ctx, hk | hk⟩ := h
    · exact exactly hk (by cases ctx <;> decide)
    · exact exactly hk (by cases ctx <;> decide)
  | includeLine => exact h.2.1.1
  | exportLine => exact h.2.1
  | functionLine => exact exactly h.1 (by decide)
  | expansion =>
    rcases h with ⟨_, hk, -⟩ | ⟨-, hk, -⟩
    · exact exactly hk (List.nil_subset _)
    · exact among hk (by decide)

theorem Conforms.recipe {n : Node k} (h : n.Conforms) (hr : .recipe ∈ n.nodeKinds) :
    k = .rule ∨ k = .recipeBranch := by
  have hk := h.parts hr
  revert hk
  cases k <;> decide

theorem IsRule.assignment {r : Rule} (h : r.IsRule) (ha : r.targetAssignment?.isSome = true) :
    r.prerequisites = [] ∧ r.orderOnly = [] ∧ r.recipeLines = [] := by
  have ha : .assignment ∈ r.nodeKinds := node?_isSome ha
  obtain ⟨-, hk | ⟨lists, items, hk, hl, hi⟩⟩ := h
  · rw [prerequisites, orderOnly, node?_eq_none (by rw [hk]; decide),
      node?_eq_none (by rw [hk]; decide), recipeLines_eq_nil (by rw [hk]; decide)
        (by rw [hk]; decide)]
    exact ⟨rfl, rfl, rfl⟩
  · rw [hk] at ha
    simp only [List.mem_cons, List.mem_append, reduceCtorEq, false_or] at ha
    rcases ha with ha | ha
    · exact absurd (hl.subset ha) (by decide)
    · exact absurd (hi ha) (by decide)

end Node

theorem Tree.Conforming.inner {ts : List Tree} (h : Conforming ts) {k : NodeKind} {us : List Tree}
    (hs : ∃ t ∈ ts, Subtree (.node k us) t) (hk : k.parts ⊆ [.expression, .expansion]) {s u : Tree}
    (hsu : Subtree s u) (hu : u ∈ us) {j : NodeKind} (hj : s.kind = .node j) :
    j ∈ [.expression, .expansion] := by
  induction hsu generalizing k us with
  | refl =>
    cases s with
    | leaf => cases hj
    | node i vs =>
      obtain rfl := Kind.node.inj hj
      obtain ⟨t, ht, hs⟩ := hs
      exact hk (Node.Conforms.parts (h k t ht us hs) (Node.mem_nodeKinds (n := ⟨us⟩) hu))
  | @child w i vs hw _ ih =>
    obtain ⟨t, ht, hs⟩ := hs
    have hi := hk (Node.Conforms.parts (h k t ht us hs) (Node.mem_nodeKinds (n := ⟨us⟩) hu))
    refine ih ⟨t, ht, Subtree.trans (.child hu (.refl _)) hs⟩ ?_ hw
    revert hi
    cases i <;> decide

theorem Parser.StatementAt.stated {lines : List Line} (hs : Sheet [] lines) {p : Placed}
    (h : StatementAt lines p) : ∃ line ls ms, line :: ls <:+ lines ∧
      Nest.Seated p.start (line :: ls).flatten ∧ Stated line ls ms [p.tree] := by
  obtain ⟨line, ls, rest, hsuf, hseat, hp⟩ := h
  obtain ⟨r, -, ht⟩ : TakesRest (statement ls) line rest [] [p.tree] := hp.runs
  obtain ⟨es, ht⟩ := ht [] []
  have hy := (buildsBelow (ls.length + 1)).statement (k := .root) (Nat.lt_succ_self _)
    (hs.suffix hsuf).next [] []
  rw [ht] at hy
  obtain ⟨_, ts, -, hb, -, -, hstated⟩ := hy
  rw [← show [p.tree] = ts from hb] at hstated
  exact ⟨line, ls, _, hsuf, hseat, hstated⟩

theorem Tree.Conforming.parent {t : Tree} (hc : Tree.Conforming [t]) {p : Placed}
    (hp : p ∈ t.subtrees) {k : NodeKind} (hk : p.tree.kind = .node k) : p.tree = t ∨
      ∃ q ∈ t.subtrees, p ∈ q.parts ∧ ∃ j : NodeKind, q.tree.kind = .node j ∧ k ∈ j.parts := by
  obtain rfl | ⟨q, hq, hpq⟩ := Tree.placed_parent hp
  · exact .inl rfl
  · refine .inr ⟨q, hq, hpq, ?_⟩
    have hm : p.tree ∈ q.tree.children := by
      rw [← Tree.map_tree_seats (q.depth + 1) q.start q.tree.children]
      exact List.mem_map_of_mem hpq
    have hsub := Tree.subtree_of_placed hq
    generalize q.tree = s at hm hsub
    cases s with
    | leaf => cases hm
    | node j vs =>
      obtain ⟨us, ht⟩ := Tree.eq_node_of_kind hk
      rw [ht] at hm
      have hn : Node.Conforms (k := j) ⟨vs⟩ := hc j _ List.mem_cons_self vs hsub
      exact ⟨j, rfl, hn.parts (Node.mem_nodeKinds hm)⟩

theorem Lexer.statementAt_of_parent {text : Text} {c : Char} {strict : Bool} {t : Tree}
    (h : (start text c).result strict = .ok t) {q : Placed} (hq : q ∈ t.subtrees)
    (hj : q.tree.kind = .node .root ∨ q.tree.kind = .node .branch) {p : Placed} (hp : p ∈ q.parts)
    {k : NodeKind} (hk : p.tree.kind = .node k) : Parser.StatementAt (start text c).lines p := by
  obtain ⟨-, us, rfl, hparses⟩ := result_ok h
  refine statementAt hparses hq hj hp ?_
  rintro ⟨i, s, hl⟩
  rw [hl] at hk
  cases hk

theorem Lexer.statementAt_of_parts {text : Text} {c : Char} {strict : Bool} {t : Tree}
    (h : (start text c).result strict = .ok t) {p : Placed} (hp : p ∈ t.subtrees) {k : NodeKind}
    (hk : p.tree.kind = .node k) (hr : k ≠ .root)
    (hs : ∀ j : NodeKind, k ∈ j.parts → j = .root ∨ j = .branch) :
    Parser.StatementAt (start text c).lines p := by
  obtain he | ⟨q, hq, hpq, j, hj, hkj⟩ := (result_conforming h).parent hp hk
  · obtain ⟨-, us, rfl, -⟩ := result_ok h
    rw [he] at hk
    exact absurd (Kind.node.inj hk).symm hr
  · refine statementAt_of_parent h hq ?_ hpq hk
    rcases hs j hkj with rfl | rfl
    · exact .inl hj
    · exact .inr hj

theorem Lexer.statementAt_of_kind {text : Text} {c : Char} {strict : Bool} {t : Tree}
    (h : (start text c).result strict = .ok t) {p : Placed} (hp : p ∈ t.subtrees) {k : NodeKind}
    (hk : p.tree.kind = .node k) (hs : k = .rule ∨ k = .definition) :
    Parser.StatementAt (start text c).lines p := by
  have hr : k ≠ .root := by
    rcases hs with rfl | rfl <;> decide
  refine statementAt_of_parts h hp hk hr fun j hj => ?_
  rcases hs with rfl | rfl <;> revert hj <;> cases j <;> decide

/-- Every node of a tree has the children that the grammar says, and commands stand where recipes
do. A rule with an assignment has neither prerequisites nor a recipe. -/
theorem parse_conforms {text : Text} {options : Options} {t : Tree}
    (h : (parse text options).result = .ok t) : t.kind = .node .root ∧
      (∀ p ∈ t.subtrees, ∀ k, ∀ n : Node k, p.tree = n.tree →
        n.Conforms ∧ (.recipe ∈ n.nodeKinds → k = .rule ∨ k = .recipeBranch)) ∧
      ∀ p ∈ t.subtrees, ∀ r : Rule, p.tree = r.tree → r.targetAssignment?.isSome = true →
        r.prerequisites = [] ∧ r.orderOnly = [] ∧ r.recipeLines = [] := by
  rw [parse_result_start] at h
  have hall {p : Placed} (hp : p ∈ t.subtrees) {k : NodeKind} {n : Node k} (hn : p.tree = n.tree) :
      n.Conforms := by
    refine Lexer.result_conforming h k t List.mem_cons_self n.children ?_
    have hs := Tree.subtree_of_placed hp
    rwa [hn] at hs
  obtain ⟨ts, rfl, -⟩ := Lexer.result_laid h
  refine ⟨rfl, fun p hp k n hn => ?_, fun p hp r hr => (hall hp hr).assignment⟩
  exact ⟨hall hp hn, (hall hp hn).recipe⟩

/-- With an assignment for a target alone. -/
theorem parse_conforms_targetAssignment : ∃ t,
    (parse "a:b=\n".toList {}).result = .ok t ∧
      t.kind = .node .root ∧
      (∀ p ∈ t.subtrees, ∀ k, ∀ n : Node k, p.tree = n.tree →
        n.Conforms ∧ (.recipe ∈ n.nodeKinds → k = .rule ∨ k = .recipeBranch)) ∧
      ∀ p ∈ t.subtrees, ∀ r : Rule, p.tree = r.tree → r.targetAssignment?.isSome = true →
        r.prerequisites = [] ∧ r.orderOnly = [] ∧ r.recipeLines = [] := by
  obtain ⟨t, ht⟩ : ∃ t, (parse "a:b=\n".toList {}).result = .ok t := exists_result (by cbv)
  exact ⟨t, ht, parse_conforms ht⟩

end MakeTree
