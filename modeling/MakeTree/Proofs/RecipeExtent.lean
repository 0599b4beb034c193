import Mathlib
import MakeTree.Proofs.Grammar.Dispatch
import MakeTree.Proofs.Grammar.Recipes
import MakeTree.Proofs.StatementRows
import MakeTree.Proofs.TreeGrammar

/-!
How far a rule goes (`parse_recipe_extent`). The lines after its first line that belong to it are the
longest run that a recipe is made of. So a rule does not end with a line that is blank or holds only
a comment, and behind it no such lines lead to more of a recipe.
-/

namespace MakeTree

open MakeTree.Tree

theorem Tree.Headed.not_pad {continues : Bool} {hd : List Tree} (h : Headed continues hd) {u : Tree}
    (hu : u ∈ hd) : u.kind ≠ .node .blankLine ∧ u.kind ≠ .node .commentLine := by
  cases u with
  | leaf => simp [Tree.kind]
  | node k us =>
    have hk : k ∈ Tree.kinds hd := List.mem_map_of_mem (mem_nodesOf.2 hu)
    have hk := h.kinds_subset hk
    simp only [List.mem_cons, List.not_mem_nil, or_false] at hk
    rcases hk with rfl | rfl | rfl | rfl | rfl <;> simp [Tree.kind]

namespace Parser

/-- A rule that does not assign to its targets is its first line and a recipe that would not go on. -/
theorem Parses.rule_recipe {line : Line} {lines rest : List Line} {us : List Tree}
    (hs : Line.Sound line) (hl : Line.Lexed (line :: lines))
    (h : Parses (.statement line) lines [.node .rule us] rest) (ha : .assignment ∉ Tree.kinds us) :
    (∀ n ∈ line, Solid n) ∧
      (∀ u ∈ us.getLast?, u.kind ≠ .node .blankLine ∧ u.kind ≠ .node .commentLine) ∧
      ∃ used, lines = used ++ rest ∧ SolidLines used ∧
        LineKind.Recipe (used.map LineKind.ofLine) ∧ Line.continuesRecipe rest = false := by
  have hg : GoodLines (line :: lines) := hl.cut.good hl.closed
  have hline := hg line List.mem_cons_self
  obtain ⟨hr, continues, hd, ts, rfl, ht, hrec, hend⟩ :=
    h.rule_parts hline (hg.suffix (List.suffix_cons _ _))
  obtain ⟨-, hheaded, -⟩ := (builds_ruleHeader (k := .rule) rfl hr).of_takes hs ht
  cases continues with
  | false =>
    obtain ⟨-, hk⟩ | ⟨hc, -⟩ := hheaded.kinds
    · rw [kinds_append, hk] at ha
      simp at ha
    · cases hc
  | true =>
    have hrec := hrec rfl
    refine ⟨?_, fun u hu => ?_, hrec.recipe hl.tail⟩
    · exact solid_of_line (consumes_ruleHeader reads_solid hline.single (k := .root)) hline.closed ht
    · cases hc : Line.continuesRecipe lines with
      | true =>
        obtain ⟨vs, k, ws, rfl, hk⟩ := hrec.endsInItem hc
        rw [← List.append_assoc, List.getLast?_concat, Option.mem_def, Option.some.injEq] at hu
        subst hu
        rcases hk with rfl | rfl <;> exact ⟨nofun, nofun⟩
      | false =>
        have hnil : ts = [] := by
          generalize htask : Task.recipes = task at hrec
          cases hrec with
          | recipesEnd => rfl
          | recipesItem hgo => exact absurd (hc.symm.trans hgo) (by decide)
          | _ => cases htask
        rw [hnil, List.append_nil] at hu
        exact hheaded.not_pad (List.mem_of_getLast? hu)

end Parser

/-- A rule that does not assign to its targets takes up its first line and the longest run of lines
after that which a recipe is made of. It does not end with a line that is blank or holds only a
comment, and behind it no such lines lead to more of a recipe. -/
theorem parse_recipe_extent {text : Text} {options : Options} {t : Tree}
    (h : (parse text options).result = .ok t) {p : Placed} (hp : p ∈ t.subtrees) {r : Rule}
    (hr : p.tree = r.tree) (ha : r.targetAssignment? = none) : ∃ before head recipe after,
      (Lexer.start text options.recipePrefix).Occupies p before (head :: recipe) after ∧
      LineKind.Recipe (recipe.map LineKind.ofLine) ∧
      (∀ more rest, after = more ++ rest →
        LineKind.Recipe ((recipe ++ more).map LineKind.ofLine) → more = []) ∧
      (∀ u ∈ r.children.getLast?, u.kind ≠ .node .blankLine ∧ u.kind ≠ .node .commentLine) ∧
      ¬ LineKind.Resumes (after.map LineKind.ofLine) := by
  rw [parse_result_start] at h
  have hk : p.tree.kind = .node .rule := by rw [hr]; rfl
  have hu := (Lexer.refusal_eq_none.1 (Lexer.result_ok h).1).2
  obtain ⟨line, ls, rest, ⟨before, hb⟩, hseat, hparses⟩ :=
    Lexer.statementAt_of_kind h hp hk (.inl rfl)
  have hlexed := Lexer.lexed_lines hu
  have hsound : Line.Sound line := (Lexer.sheet_lines hu).below line (hb ▸ by simp)
  rw [← hb] at hlexed
  obtain ⟨used, rfl, hocc⟩ := Lexer.occupies_statement hu hb.symm hseat hparses
  rw [hr] at hparses
  have hassign : .assignment ∉ Tree.kinds r.children := fun hm => by
    obtain ⟨⟨_, vs⟩, hv, rfl⟩ := List.mem_map.1 hm
    have hn : (⟨vs⟩ : Assignment) ∈ r.nodes .assignment := by
      rw [Node.nodes_eq]
      exact NodeKind.mem_pick.2 hv
    rw [Node.targetAssignment?, Node.node?, List.head?_eq_none_iff] at ha
    rw [ha] at hn
    cases hn
  obtain ⟨hsolid, hlast, used', hu', hused, hrecipe, hend⟩ :=
    hparses.rule_recipe hsound hlexed.right hassign
  obtain rfl := List.append_cancel_right hu'
  have hmine : Line.Lexed ((line :: used) ++ rest) := hlexed.right
  rw [Line.rows_cons_solid hmine.left.cut (by simpa using hmine.left.head.closed) hsolid] at hocc
  have hkinds : (Line.rows used).map LineKind.ofLine = used.map LineKind.ofLine :=
    LineKind.ofLines_solid hmine.left.tail.cut hmine.left.tail.closed hused
  have hresumes : ¬ LineKind.Resumes ((Line.rows rest).map LineKind.ofLine) := fun hr => by
    rw [(Line.continuesRecipe_iff hmine.right).2 hr] at hend
    cases hend
  refine ⟨_, _, _, _, hocc, hkinds ▸ hrecipe, fun more after hmore hlong => ?_, hlast, hresumes⟩
  rw [hmore, List.map_append] at hresumes
  rw [List.map_append, hkinds] at hlong
  exact List.map_eq_nil_iff.1 (hrecipe.longest hresumes hlong)

/-- With a comment and a conditional in the recipe, and a blank line behind it. -/
theorem parse_recipe_extent_conditional : ∃ (t : Tree) (p : Placed) (r : Rule),
    (parse "a:\n#b\nifdef C\n\td\nendif\n\n".toList {}).result = .ok t ∧ p ∈ t.subtrees ∧
      p.tree = r.tree ∧ r.targetAssignment? = none ∧ ∃ before head recipe after,
        (Lexer.start "a:\n#b\nifdef C\n\td\nendif\n\n".toList '\t').Occupies p before
          (head :: recipe) after ∧
        LineKind.Recipe (recipe.map LineKind.ofLine) ∧
        (∀ more rest, after = more ++ rest →
          LineKind.Recipe ((recipe ++ more).map LineKind.ofLine) → more = []) ∧
        (∀ u ∈ r.children.getLast?, u.kind ≠ .node .blankLine ∧ u.kind ≠ .node .commentLine) ∧
        ¬ LineKind.Resumes (after.map LineKind.ofLine) := by
  let r : Rule := ⟨[.node .targets [.node .expression [.leaf (.token .plainText) ['a']]],
    .leaf (.token .colon) [':'], .leaf (.token .lineBreak) ['\n'],
    .node .commentLine [.leaf (.token .comment) ['#', 'b'], .leaf (.token .lineBreak) ['\n']],
    .node .recipeConditional [
      .leaf (.token (.keyword (.conditional .ifdef))) "ifdef".toList,
      .leaf (.token .whitespace) [' '],
      .node .condition [.node .expression [.leaf (.token .plainText) ['C']]],
      .leaf (.token .lineBreak) ['\n'],
      .node .recipeBranch [.node .recipe [.leaf (.token .recipePrefix) ['\t'],
        .node .expression [.leaf (.token .plainText) ['d']], .leaf (.token .lineBreak) ['\n']]],
      .leaf (.token (.keyword .endif)) "endif".toList, .leaf (.token .lineBreak) ['\n']]]⟩
  have h : (parse "a:\n#b\nifdef C\n\td\nendif\n\n".toList {}).result = .ok (.node .root
      [r.tree, .node .blankLine [.leaf (.token .lineBreak) ['\n']]]) := by cbv
  have hp : (⟨1, 0, r.tree⟩ : Placed) ∈ (Tree.node .root
      [r.tree, .node .blankLine [.leaf (.token .lineBreak) ['\n']]]).subtrees :=
    List.mem_cons_of_mem _ List.mem_cons_self
  exact ⟨_, _, r, h, hp, rfl, rfl, parse_recipe_extent h hp rfl rfl⟩

end MakeTree
