import Mathlib
import MakeTree.Proofs.TreeGrammar

/-!
The command on the first line of a rule (`parse_inlineRecipe`). The view looks for a semicolon as the
first leaf of a command, so it misses one that something was passed over in front of, and where the
recipe prefix is a semicolon it may find a command on a later line.
-/

namespace MakeTree

open MakeTree.Tree

/-- Every rule of a tree is made of a first line and a recipe. -/
theorem Lexer.result_ruled {text : Text} {c : Char} {strict : Bool} {t : Tree}
    (h : (start text c).result strict = .ok t) {us : List Tree}
    (hs : Subtree (.node .rule us) t) : Ruled us := by
  obtain ⟨p, hp, hpt⟩ := hs.placed 0 0
  have hk : p.tree.kind = .node .rule := by rw [hpt]; rfl
  have hsheet := sheet_lines (refusal_eq_none.1 (result_ok h).1).2
  obtain ⟨_, _, _, -, -, hstated⟩ := (statementAt_of_kind h hp hk (.inl rfl)).stated hsheet
  exact hstated.rules us (by rw [hpt]; exact List.mem_cons_self)

namespace Node

variable {k : NodeKind}

/-- Whether the node begins with its first token, and nothing was passed over in front of that. -/
def beginsWithToken (n : Node k) : Bool :=
  n.children.head?.any fun
    | .leaf (.token _) _ => true
    | _ => false

/-- The first leaf reads as a semicolon if it is the first token and this does: nothing passed over
does. -/
theorem firstLeaf?_of_ledBy {n : Node k} {q : Token → Bool} {c : Char} (h : LedBy q n.children)
    (hw : Written c n.children) : ∃ t : Token, q t = true ∧ t.Written c ∧
      n.tokens.head? = some (t.kind, t.text) ∧
      n.tree.firstLeaf?.any (·.2 == [';']) = (n.beginsWithToken && t.text == [';']) := by
  obtain ⟨x, hq, ws, hn⟩ := h
  rw [← hn] at hw
  have hx := Written.leaves_iff.1 (Written.append_iff.1 hw).1
  refine ⟨x.token, hq, hx.token, by rw [tokens_eq, ← hn]; simp, ?_⟩
  rw [Lexeme.leaves, List.append_assoc, List.singleton_append] at hn
  rw [beginsWithToken, tree, ← hn, firstLeaf?_behind]
  cases hv : x.leading with
  | nil => simp
  | cons v vs =>
    have hne : v.text ≠ [';'] :=
      (hx.leading v (hv ▸ List.mem_cons_self)).text_ne (by decide) (by decide) []
    cases v with
    | continuation s => simpa [Trivia.leaf, Trivia.tree, Trivia.text] using hne
    | skipped d => simpa [Trivia.leaf, Trivia.tree, Trivia.text] using hne

theorem recipeLines_eq (n : Node k) : n.recipeLines =
    (nodesOf n.children).filterMap fun u => RecipeLine.ofTree? (.node u.1 u.2) := by
  rw [recipeLines, nodesOf, List.filterMap_filterMap]
  congr 1
  funext t
  cases t <;> rfl

theorem firstLeaf?_of_semicolon {n : Node k} {c : Char} (h : LedBy (·.isText [';']) n.children)
    (hw : Written c n.children) : n.tokens.head? = some (.plainText, [';']) ∧
      n.tree.firstLeaf?.any (·.2 == [';']) = n.beginsWithToken := by
  obtain ⟨t, hq, -, ht, hb⟩ := firstLeaf?_of_ledBy h hw
  simp only [Token.isText, Bool.and_eq_true, beq_iff_eq] at hq
  rw [hq.1, hq.2] at ht
  exact ⟨ht, by rw [hb, hq.2, beq_self_eq_true, Bool.and_true]⟩

theorem firstLeaf?_of_recipePrefix {n : Node k} {c : Char}
    (h : LedBy (·.kind == .recipePrefix) n.children) (hw : Written c n.children) :
    n.tokens.head? = some (.recipePrefix, [c]) ∧
      n.tree.firstLeaf?.any (·.2 == [';']) = (n.beginsWithToken && c == ';') := by
  obtain ⟨t, hq, hwt, ht, hb⟩ := firstLeaf?_of_ledBy h hw
  have hk : t.kind = .recipePrefix := beq_iff_eq.1 hq
  have hs : t.text = [c] := by rwa [Token.Written, hk] at hwt
  rw [hk, hs] at ht
  exact ⟨ht, by rw [hb, hs]; simp⟩

theorem inlineRecipe?_eq {r : Rule} {header : Option (Node .recipe)} {lines : List (Node .recipe)}
    {c : Char} (hn : r.nodes .recipe = header.toList ++ lines)
    (hheader : ∀ n ∈ header, n.tree.firstLeaf?.any (·.2 == [';']) = n.beginsWithToken)
    (hlines : ∀ n ∈ lines, n.tree.firstLeaf?.any (·.2 == [';']) = (n.beginsWithToken && c == ';')) :
    r.inlineRecipe? = ((header.toList ++ if c = ';' then lines else []).find?
      beginsWithToken).bind (·.node? .expression) := by
  have hheader : header.toList.find? (fun n => n.tree.firstLeaf?.any (·.2 == [';'])) =
      header.toList.find? beginsWithToken :=
    List.find?_congr fun n hm => hheader n (Option.mem_toList.1 hm)
  have hlines : lines.find? (fun n => n.tree.firstLeaf?.any (·.2 == [';'])) =
      (if c = ';' then lines else []).find? beginsWithToken := by
    by_cases hc : c = ';'
    · rw [if_pos hc]
      exact List.find?_congr fun n hm => by rw [hlines n hm, hc, beq_self_eq_true, Bool.and_true]
    · rw [if_neg hc]
      exact List.find?_eq_none.2 fun n hm => by simp [hlines n hm, hc]
  show ((r.nodes .recipe).find? _).bind _ = _
  rw [hn, List.find?_append, List.find?_append, hheader, hlines]

theorem head?_recipeLines {r : Rule} {vs ls : List (NodeKind × List Tree)} {us : List Tree}
    (hn : nodesOf r.children = vs ++ (.recipe, us) :: ls)
    (hvs : ∀ v ∈ vs, v.1 ∉ NodeKind.recipeItems) {e : Expression}
    (he : (⟨us⟩ : Node .recipe).node? .expression = some e) :
    r.recipeLines.head? = some (.command e) := by
  have hnone : vs.filterMap (fun u => RecipeLine.ofTree? (.node u.1 u.2)) = [] := by
    refine List.filterMap_eq_nil_iff.2 fun v hv => ?_
    have hv := hvs v hv
    unfold RecipeLine.ofTree?
    split
    · next heq =>
      rw [(Tree.node.inj heq).1] at hv
      exact absurd (by decide) hv
    · next heq =>
      rw [(Tree.node.inj heq).1] at hv
      exact absurd (by decide) hv
    · rfl
  have hcommand : RecipeLine.ofTree? (.node .recipe us) = some (.command e) := by
    rw [RecipeLine.ofTree?, he]
    rfl
  rw [recipeLines_eq, hn, List.filterMap_append, hnone, List.nil_append, List.filterMap_cons,
    hcommand]
  rfl

/-- The commands of a rule: at most one behind a semicolon, which is the first of the recipe, and
those behind a recipe prefix. -/
theorem recipes_of_ruled {r : Rule} (h : Ruled r.children) :
    ∃ (header : Option (Node .recipe)) (lines : List (Node .recipe)),
      r.nodes .recipe = header.toList ++ lines ∧
      (∀ n ∈ header, LedBy (·.isText [';']) n.children ∧
        ∀ e, n.node? .expression = some e → r.recipeLines.head? = some (.command e)) ∧
      ∀ n ∈ lines, LedBy (·.kind == .recipePrefix) n.children := by
  obtain ⟨vs, _, ls, hn, hvs, ⟨header, rfl, hheader⟩, hls⟩ := h
  have hnone : NodeKind.recipe.pick vs = [] :=
    List.eq_nil_iff_forall_not_mem.2 fun n hm => hvs _ (NodeKind.mem_pick.1 hm) List.mem_cons_self
  have hlines : ∀ n ∈ NodeKind.recipe.pick ls, LedBy (·.kind == .recipePrefix) n.children :=
    fun n hm => hls _ (NodeKind.mem_pick.1 hm)
  have hnodes : r.nodes .recipe = NodeKind.recipe.pick (header.toList.map (Prod.mk .recipe)) ++
      NodeKind.recipe.pick ls := by
    rw [nodes_eq, hn, NodeKind.pick_append, NodeKind.pick_append, hnone, List.nil_append]
  cases header with
  | none => exact ⟨none, _, hnodes, nofun, hlines⟩
  | some us =>
    refine ⟨some ⟨us⟩, _, hnodes, ?_, hlines⟩
    rintro _ ⟨⟩
    exact ⟨hheader us rfl, fun e he => head?_recipeLines hn hvs he⟩

end Node

/-- The command on the first line of a rule is led by a semicolon and comes first in its recipe, and
those on the lines after it are led by the recipe prefix. The view finds the first of them that begins
with its token, the ones on later lines only if the recipe prefix is a semicolon. -/
theorem parse_inlineRecipe {text : Text} {options : Options} {t : Tree}
    (h : (parse text options).result = .ok t) {p : Placed} (hp : p ∈ t.subtrees) {r : Rule}
    (hr : p.tree = r.tree) : ∃ (header : Option (Node .recipe)) (lines : List (Node .recipe)),
      r.nodes .recipe = header.toList ++ lines ∧
      (∀ n ∈ header, n.tokens.head? = some (.plainText, [';']) ∧
        ∃ e, n.node? .expression = some e ∧ r.recipeLines.head? = some (.command e)) ∧
      (∀ n ∈ lines, n.tokens.head? = some (.recipePrefix, [options.recipePrefix])) ∧
      r.inlineRecipe? = ((header.toList ++ if options.recipePrefix = ';' then lines else []).find?
        Node.beginsWithToken).bind (·.node? .expression) := by
  rw [parse_result_start] at h
  have hsub : Subtree r.tree t := hr ▸ subtree_of_placed hp
  have hnode (n : Node .recipe) (hm : n ∈ r.nodes .recipe) :
      Written options.recipePrefix n.children ∧ ∃ e, n.node? .expression = some e := by
    rw [Node.nodes_eq] at hm
    have hm : n.tree ∈ r.children := mem_nodesOf.1 (NodeKind.mem_pick.1 hm)
    have hs : Subtree n.tree t := .trans (.child hm (.refl _)) hsub
    have hc : kinds n.children = [.expression] :=
      Lexer.result_conforming h .recipe _ List.mem_cons_self _ hs
    refine ⟨Lexer.result_written h hs, ?_⟩
    obtain ⟨⟨_, e⟩, he, rfl⟩ := List.map_eq_singleton_iff.1 hc
    exact ⟨⟨e⟩, by rw [Node.node?, Node.nodes_eq, he]; rfl⟩
  obtain ⟨header, lines, hn, hheader, hlines⟩ := Node.recipes_of_ruled (Lexer.result_ruled h hsub)
  have hofHeader (n : Node .recipe) (hm : n ∈ header) :=
    hnode n (hn ▸ List.mem_append_left lines (Option.mem_toList.2 hm))
  have hofLines (n : Node .recipe) (hm : n ∈ lines) := hnode n (hn ▸ List.mem_append_right _ hm)
  refine ⟨header, lines, hn, fun n hm => ?_, fun n hm => ?_, Node.inlineRecipe?_eq hn ?_ ?_⟩
  · obtain ⟨hw, e, he⟩ := hofHeader n hm
    exact ⟨(Node.firstLeaf?_of_semicolon (hheader n hm).1 hw).1, e, he, (hheader n hm).2 e he⟩
  · exact (Node.firstLeaf?_of_recipePrefix (hlines n hm) (hofLines n hm).1).1
  · exact fun n hm => (Node.firstLeaf?_of_semicolon (hheader n hm).1 (hofHeader n hm).1).2
  · exact fun n hm => (Node.firstLeaf?_of_recipePrefix (hlines n hm) (hofLines n hm).1).2

/-- A command behind a semicolon with a continuation in front of it, which the view does not find. -/
theorem parse_continuedSemicolon : ∃ (t : Tree) (r : Rule) (n : Node .recipe),
    (parse "a:\\\n;b\n".toList {}).result = .ok t ∧ (⟨1, 0, r.tree⟩ : Placed) ∈ t.subtrees ∧
      n ∈ r.nodes .recipe ∧ n.tokens.head? = some (.plainText, [';']) ∧
      n.node? .expression = some ⟨[.leaf (.token .plainText) ['b']]⟩ ∧ r.inlineRecipe? = none := by
  let n : Node .recipe := ⟨[.leaf .continuation ['\\', '\n'], .leaf (.token .plainText) [';'],
    .node .expression [.leaf (.token .plainText) ['b']], .leaf (.token .lineBreak) ['\n']]⟩
  let r : Rule := ⟨[.node .targets [.node .expression [.leaf (.token .plainText) ['a']]],
    .leaf (.token .colon) [':'], n.tree]⟩
  have h : (parse "a:\\\n;b\n".toList {}).result = .ok (.node .root [r.tree]) := by cbv
  exact ⟨_, r, n, h, List.mem_cons_of_mem _ List.mem_cons_self, List.mem_cons_self, rfl, rfl, rfl⟩

/-- A command behind a recipe prefix that is a semicolon, which the view finds. -/
theorem parse_prefixedSemicolon : ∃ (t : Tree) (r : Rule) (n : Node .recipe),
    (parse "a:\n;b\n".toList ⟨';', false⟩).result = .ok t ∧
      (⟨1, 0, r.tree⟩ : Placed) ∈ t.subtrees ∧ r.nodes .recipe = [n] ∧
      n.tokens.head? = some (.recipePrefix, [';']) ∧
      r.inlineRecipe? = some ⟨[.leaf (.token .plainText) ['b']]⟩ := by
  let n : Node .recipe := ⟨[.leaf (.token .recipePrefix) [';'],
    .node .expression [.leaf (.token .plainText) ['b']], .leaf (.token .lineBreak) ['\n']]⟩
  let r : Rule := ⟨[.node .targets [.node .expression [.leaf (.token .plainText) ['a']]],
    .leaf (.token .colon) [':'], .leaf (.token .lineBreak) ['\n'], n.tree]⟩
  have h : (parse "a:\n;b\n".toList ⟨';', false⟩).result = .ok (.node .root [r.tree]) := by cbv
  exact ⟨_, r, n, h, List.mem_cons_of_mem _ List.mem_cons_self, rfl, rfl, rfl⟩

/-- With a continuation in front of the semicolon. -/
theorem parse_inlineRecipe_continued : ∃ (t : Tree) (p : Placed) (r : Rule),
    (parse "a:\\\n;b\n".toList {}).result = .ok t ∧ p ∈ t.subtrees ∧ p.tree = r.tree ∧
      ∃ (header : Option (Node .recipe)) (lines : List (Node .recipe)),
        r.nodes .recipe = header.toList ++ lines ∧
        (∀ n ∈ header, n.tokens.head? = some (.plainText, [';']) ∧
          ∃ e, n.node? .expression = some e ∧ r.recipeLines.head? = some (.command e)) ∧
        (∀ n ∈ lines, n.tokens.head? = some (.recipePrefix, ['\t'])) ∧
        r.inlineRecipe? = ((header.toList ++ if '\t' = ';' then lines else []).find?
          Node.beginsWithToken).bind (·.node? .expression) := by
  obtain ⟨t, r, _, h, hp, -⟩ := parse_continuedSemicolon
  exact ⟨t, _, r, h, hp, rfl, parse_inlineRecipe h hp rfl⟩

/-- The view neither always finds the command behind the semicolon of the first line nor, if there is
none, always nothing. -/
theorem parse_inlineRecipe_mistaken :
    (¬ ∀ (text : Text) (options : Options) (t : Tree) (p : Placed) (r : Rule),
      (parse text options).result = .ok t → p ∈ t.subtrees → p.tree = r.tree →
        ∀ n ∈ r.nodes .recipe, n.tokens.head? = some (.plainText, [';']) →
          r.inlineRecipe? = n.node? .expression) ∧
    ¬ ∀ (text : Text) (options : Options) (t : Tree) (p : Placed) (r : Rule),
      (parse text options).result = .ok t → p ∈ t.subtrees → p.tree = r.tree →
        (∀ n ∈ r.nodes .recipe, n.tokens.head? ≠ some (.plainText, [';'])) →
          r.inlineRecipe? = none := by
  constructor
  · intro hall
    obtain ⟨t, r, n, h, hp, hn, hs, he, hi⟩ := parse_continuedSemicolon
    have := hall _ _ t _ r h hp rfl n hn hs
    rw [hi, he] at this
    cases this
  · intro hall
    obtain ⟨t, r, n, h, hp, hn, hs, hi⟩ := parse_prefixedSemicolon
    have := hall _ _ t _ r h hp rfl fun m hm => by
      rw [hn] at hm
      rw [List.mem_singleton.1 hm, hs]
      decide
    rw [hi] at this
    cases this

end MakeTree
