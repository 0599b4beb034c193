import MakeTree.Proofs.Grammar.Provenance
import MakeTree.Proofs.Grammar.Relocation
import MakeTree.Proofs.Lossless

/-!
Statements by themselves. The text of a statement, wherever it stands in a tree, comes by itself to
a tree of that statement only (`parse_statement`): its lines start where the lexer stands as at the
start of a text, and no lookahead of the grammar goes past them.
-/

namespace MakeTree

namespace Lexer

variable {text : Text} {c : Char}

/-- Some lines of a text, read by themselves: there are no other pieces in them, and nothing is
left open. -/
theorem stretch (hu : (start text c).unclosed? = none) {before ls after : List Line}
    (hl : (start text c).lines = before ++ (ls ++ after)) (hb : Nest.EndLine before.flatten) :
    ∃ l b, ((start (Nest.textOf ls.flatten) c).shift l b).nests = (ls.flatten, []) ∧
      ((start (Nest.textOf ls.flatten) c).shift l b).unclosed? = none ∧
      ∀ p ∈ ((start (Nest.textOf ls.flatten) c).shift l b).run.1, p ∈ (start text c).run.1 := by
  have hy := yields_start hu
  rw [← flatten_lines, hl, List.flatten_append, List.flatten_append] at hy
  obtain ⟨mid, h₁, hy⟩ := hy.split
  obtain ⟨stop, h₂, h₃⟩ := hy.split
  have hlast : (start text c).run.2.expansions = 0 := by
    have hf : (start text c).run.2.frames = [] := by simpa [unclosed?] using hu
    rw [Lexer.expansions, hf]
    rfl
  have hstop : stop.expansions = 0 := h₃.expansions hlast
  have hmid := h₁.restart (h₂.expansions hstop) hb
  have hw : (start (Nest.textOf ls.flatten) c).shift (Nest.textOf before.flatten).lineBreaks
      (Nest.textOf before.flatten).byteSize = mid.withRest (Nest.textOf ls.flatten) :=
    congrArg (fun lx => lx.withRest (Nest.textOf ls.flatten)) hmid.symm
  obtain ⟨ha, hrun⟩ := h₂.alone
  obtain ⟨hn, hopen⟩ := ha.nests rfl
  obtain ⟨ps, -, hps, -⟩ := h₁
  obtain ⟨qs, -, hqs, -⟩ := h₂
  have hframes : stop.frames = [] :=
    (hqs.grounded (hps.grounded (start_grounded text c))).frames_eq_nil hstop
  have hopen : (mid.withRest (Nest.textOf ls.flatten)).unclosed? = none := by
    rw [hopen]
    exact congrArg List.head? hframes
  refine ⟨(Nest.textOf before.flatten).lineBreaks, (Nest.textOf before.flatten).byteSize, ?_⟩
  rw [hw]
  refine ⟨hn, hopen, fun p hp => ?_⟩
  rw [hps.run, hrun]
  exact List.mem_append_right _ (List.mem_append_left _ hp)

/-- Lines that statements are made of come by themselves to these statements. -/
theorem result_stretch {strict : Bool} (hr : (start text c).refusal strict = none)
    {before ls after : List Line} (hl : (start text c).lines = before ++ (ls ++ after))
    (hb : Nest.EndLine before.flatten) {ts : List Tree} (hp : Parser.Parses .file ls ts []) :
    (start (Nest.textOf ls.flatten) c).result strict = .ok (.node .root ts) := by
  obtain ⟨hs, hu⟩ := refusal_eq_none.1 hr
  obtain ⟨l, b, hn, hopen, hrun⟩ := stretch hu hl hb
  have hls : ((start (Nest.textOf ls.flatten) c).shift l b).lines = ls := by
    have hcut := cut_lines (start text c)
    rw [hl] at hcut
    rw [lines, hn]
    exact hcut.right.left
  have hr' : ((start (Nest.textOf ls.flatten) c).shift l b).refusal strict = none := by
    refine refusal_eq_none.2 ⟨fun h => ?_, hopen⟩
    refine List.findSome?_eq_none_iff.2 fun p hp => ?_
    exact List.findSome?_eq_none_iff.1 (hs h) p (hrun p hp)
  have h := result_of_parses hr' (hls ▸ hp)
  rw [hn, result_shift] at h
  cases hres : (start (Nest.textOf ls.flatten) c).result strict with
  | error e =>
    rw [hres] at h
    cases h
  | ok t =>
    rw [hres] at h
    cases h
    rw [List.map_nil, List.append_nil]

theorem seated_lines (text : Text) (c : Char) : Nest.Seated 0 (start text c).lines.flatten := by
  rw [flatten_lines]
  exact Nest.seated_nests (start text c)

end Lexer

theorem Lexer.entries_of_placed {text : Text} {c : Char} {us : List Tree} {trailing : List Trivia}
    (hp : Parser.Parses .file (start text c).lines us []) {q : Placed}
    (hq : q ∈ (Tree.node .root (us ++ trailing.map Trivia.tree)).subtrees) {j : NodeKind}
    (hk : q.tree.kind = .node j) (hj : ¬ j.Inner) :
    Parser.Entries (start text c).lines q.parts := by
  have hs := seated_lines text c
  have leaf {t : Tree} (ht : t ∈ trailing.map Trivia.tree) : t.IsLeaf :=
    Lexeme.isLeaf_of_mem_leading ht
  rcases List.mem_cons.1 hq with rfl | hq
  · show Parser.Entries _ (Tree.seats 1 0 (us ++ trailing.map Trivia.tree))
    rw [Tree.seats_append]
    refine (hp.entries (.inr rfl) hs 1).append fun r hr hl => absurd (leaf ?_) hl
    rw [← Tree.map_tree_seats 1 _ (trailing.map Trivia.tree)]
    exact List.mem_map_of_mem hr
  · exact (hp.every hj hs 1).append (.of_every (.of_leaves fun _ => leaf)) q hq hk

theorem Lexer.statementAt {text : Text} {c : Char} {us : List Tree} {trailing : List Trivia}
    (hp : Parser.Parses .file (start text c).lines us []) {q : Placed}
    (hmem : q ∈ (Tree.node .root (us ++ trailing.map Trivia.tree)).subtrees)
    (hk : q.tree.kind = .node .root ∨ q.tree.kind = .node .branch) {p : Placed} (hs : p ∈ q.parts)
    (hl : ¬ p.tree.IsLeaf) : Parser.StatementAt (start text c).lines p := by
  rcases hk with hk | hk
  · exact entries_of_placed hp hmem hk (fun h => h.1 rfl) p hs hl
  · exact entries_of_placed hp hmem hk (fun h => h.2 rfl) p hs hl

/-- A statement on the top level or in a branch comes to the same tree by itself. -/
theorem parse_statement {text : Text} {options : Options} {t : Tree}
    (h : (parse text options).result = .ok t) {p : Placed} (hp : p ∈ t.subtrees)
    (hk : p.tree.kind = .node .root ∨ p.tree.kind = .node .branch) {k : NodeKind}
    {ts : List Tree} (hs : .node k ts ∈ p.tree.children) :
    (parse (Tree.text (.node k ts)) options).result = .ok (.node .root [.node k ts]) := by
  rw [parse_result_start] at h ⊢
  obtain ⟨hr, us, rfl, hparses⟩ := Lexer.result_ok h
  have hu := (Lexer.refusal_eq_none.1 hr).2
  rw [← Tree.map_tree_seats (p.depth + 1) p.start p.tree.children] at hs
  obtain ⟨q, hq, hqt⟩ := List.mem_map.1 hs
  have hleaf : ¬ q.tree.IsLeaf := by
    rw [hqt]
    nofun
  obtain ⟨line, ls, rest, ⟨before, hb⟩, hseat, hst⟩ := Lexer.statementAt hparses hp hk hq hleaf
  rw [hqt] at hst
  obtain ⟨used, rfl, hspan⟩ := hst.extent
  have hl : (Lexer.start text options.recipePrefix).lines = before ++ (line :: used ++ rest) :=
    hb.symm
  have hcut := Lexer.cut_lines (Lexer.start text options.recipePrefix)
  have hcl := Lexer.closed_lines hu
  rw [hl] at hcut hcl
  have hend : Nest.EndLine before.flatten := Line.endLine_flatten (hcut.ended (by simp))
  have hx : Parser.Exchange (line :: used) rest [] := by
    refine ⟨hcut.right, ?_, ?_, .nil rest⟩
    · rw [List.flatten_append] at hcl
      exact (Nest.closedAll_append.1 hcl).2
    · rw [List.append_nil]
      exact hcut.right.left
  have halone := hst.relocate rfl hx.tail trivial
  rw [List.append_nil] at halone
  have hres := Lexer.result_stretch hr hl hend (.fileStatement halone .fileEnd)
  have hseat : Nest.Seated q.start ((line :: used).flatten ++ rest.flatten) := by
    rwa [← List.flatten_append]
  have htext : Tree.textOf [.node k ts] = Nest.textOf (line :: used).flatten :=
    (hspan .root (by decide)).textOf hseat.split.1
  rwa [List.append_nil, ← htext, Tree.textOf, Tree.textOf, List.append_nil] at hres

/-- An assignment in a branch. -/
theorem parse_statement_branch : ∃ t p ts,
    (parse "ifdef A\nb=\nendif\n".toList {}).result = .ok t ∧ p ∈ t.subtrees ∧
      p.tree.kind = .node .branch ∧ .node .assignment ts ∈ p.tree.children ∧
      (parse (Tree.text (.node .assignment ts)) {}).result =
        .ok (.node .root [.node .assignment ts]) := by
  have h : (parse "ifdef A\nb=\nendif\n".toList {}).result = .ok (.node .root [.node .conditional [
      .leaf (.token (.keyword (.conditional .ifdef))) "ifdef".toList,
      .leaf (.token .whitespace) [' '],
      .node .condition [.node .expression [.leaf (.token .plainText) ['A']]],
      .leaf (.token .lineBreak) ['\n'],
      .node .branch [.node .assignment [.node .expression [.leaf (.token .plainText) ['b']],
        .leaf (.token .assignOp) ['='], .node .expression [], .leaf (.token .lineBreak) ['\n']]],
      .leaf (.token (.keyword .endif)) "endif".toList,
      .leaf (.token .lineBreak) ['\n']]]) := by cbv
  have hp : (⟨2, 8, .node .branch [.node .assignment [.node .expression [
      .leaf (.token .plainText) ['b']], .leaf (.token .assignOp) ['='], .node .expression [],
      .leaf (.token .lineBreak) ['\n']]]⟩ : Placed) ∈ (Tree.node .root [.node .conditional [
      .leaf (.token (.keyword (.conditional .ifdef))) "ifdef".toList,
      .leaf (.token .whitespace) [' '],
      .node .condition [.node .expression [.leaf (.token .plainText) ['A']]],
      .leaf (.token .lineBreak) ['\n'],
      .node .branch [.node .assignment [.node .expression [.leaf (.token .plainText) ['b']],
        .leaf (.token .assignOp) ['='], .node .expression [], .leaf (.token .lineBreak) ['\n']]],
      .leaf (.token (.keyword .endif)) "endif".toList,
      .leaf (.token .lineBreak) ['\n']]]).subtrees := by
    simp [Tree.subtrees, Tree.placed, Tree.placedOf, Tree.text, Tree.textOf, Text.byteSize,
      Char.utf8Size]
  exact ⟨_, _, _, h, hp, rfl, List.mem_cons_self,
    parse_statement h hp (.inr rfl) List.mem_cons_self⟩

end MakeTree
