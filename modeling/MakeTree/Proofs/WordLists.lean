import Mathlib
import MakeTree.Proofs.Grammar.DirectiveRow
import MakeTree.Proofs.Grammar.RuleRow
import MakeTree.Proofs.TreeGrammar

/-!
Lists of words (`parse_wordLists`). The expressions in the lists of a rule and in directives are the
words of the tokens that stand there: the pieces without a blank outside of expansions, with nothing
but blanks between them. So no word is lost, split or merged.
-/

namespace MakeTree

open MakeTree.Tree

/-- The parts of a rule that are lists of words. -/
def NodeKind.lists : List NodeKind := [.targets, .prerequisites, .orderOnly]

/-- What stands around the words of a node in it. A directive has its keyword in front of them, and
the end of its line behind. -/
inductive NodeKind.Frames : NodeKind → List Token → List Token → Prop
  | list {k : NodeKind} (hk : k ∈ lists) : Frames k [] []
  | directive {k : NodeKind} {lead ending : List Token} {keyword : Token}
      (hk : k = .includeLine ∨ k = .exportLine) (hl : ∀ t ∈ lead, t.kind.isLeading = true)
      (hw : keyword.kind.isKeyword = true)
      (he : ∀ t ∈ ending, t.kind = .comment ∨ t.kind = .lineBreak) :
      Frames k (lead ++ [keyword]) ending

namespace Parser

/-- Trees with lists of words among them, none of which goes on behind the end of the line. -/
inductive Listing : List Nest → List Tree → Prop
  | plain {ns : List Nest} {ts : List Tree} (h : Held ns ts)
      (hk : ∀ k ∈ NodeKind.lists, ∀ us, Tree.node k us ∉ ts) : Listing ns ts
  | list {k : NodeKind} {ns : List Nest} (hk : k ∈ NodeKind.lists)
      (hn : ∀ n ∈ ns, n.endsLine = false) : Listing ns [.node k (Nest.wordTrees ns)]
  | append {ms ns : List Nest} {ts us : List Tree} (h : Listing ms ts) (h' : Listing ns us) :
      Listing (ms ++ ns) (ts ++ us)

namespace Listing

variable {ns : List Nest} {ts : List Tree}

theorem held (h : Listing ns ts) : Held ns ts := by
  induction h with
  | plain h => exact h
  | @list k ns hk =>
    have hne {j : NodeKind} (hj : j ∉ NodeKind.lists) : k ≠ j := fun h => hj (h ▸ hk)
    exact (Nest.held_wordTrees ns).node ⟨hne (by decide), hne (by decide)⟩ (hne (by decide))
  | append _ _ ih ih' => exact ih.append ih'

theorem stretch (h : Listing ns ts) {depth start : Nat} (hs : Nest.Seated start ns) {p : Placed}
    (hp : p ∈ seats depth start ts) {k : NodeKind} (hk : k ∈ NodeKind.lists) {us : List Tree}
    (ht : p.tree = .node k us) : ∃ before mine after, ns = before ++ (mine ++ after) ∧
      Nest.Seated p.start mine ∧ us = Nest.wordTrees mine ∧ ∀ n ∈ mine, n.endsLine = false := by
  induction h generalizing start with
  | @plain ns ts _ hk' =>
    refine absurd ?_ (hk' k hk us)
    rw [← ht, ← map_tree_seats depth start ts]
    exact List.mem_map_of_mem hp
  | @list j ns _ hn =>
    obtain rfl := List.mem_singleton.1 hp
    obtain ⟨-, rfl⟩ := Tree.node.inj ht
    exact ⟨[], ns, [], (List.append_nil ns).symm, hs, rfl, hn⟩
  | @append ms ns ts us' h _ ih ih' =>
    rw [seats_append] at hp
    rcases List.mem_append.1 hp with hp | hp
    · obtain ⟨before, mine, after, rfl, hmine⟩ := ih hs.split.1 hp
      exact ⟨before, mine, after ++ ns, by simp, hmine⟩
    · obtain ⟨before, mine, after, rfl, hmine⟩ := ih' (h.held.seat hs) hp
      exact ⟨ms ++ before, mine, after, by simp, hmine⟩

theorem treesOf (ns : List Nest) : Listing ns (Nest.treesOf ns) := by
  refine .plain (Nest.held_treesOf ns) fun k hk us hm => ?_
  rcases Nest.kinds_treesOf (List.mem_map_of_mem (mem_nodesOf.2 hm)) with h | h <;> subst h <;>
    exact absurd hk (by decide)

theorem node {k : NodeKind} {us : List Tree} (h : Held ns [.node k us]) (hk : k ∉ NodeKind.lists) :
    Listing ns [.node k us] := by
  refine .plain h fun j hj vs hm => ?_
  obtain ⟨rfl, -⟩ := Tree.node.inj (List.mem_singleton.1 hm)
  exact hk hj

end Listing

end Parser

section Rows

open MakeTree.Parser

theorem TargetRow.Cut.listing {r : TargetRow} {rest : List Nest} (h : r.Cut rest) :
    Listing r.nests r.trees := by
  have hwords : Listing r.words [.node .targets (Nest.wordTrees r.words)] :=
    .list (by decide) fun n hn => (h.words n hn).1
  exact (Listing.treesOf r.lead).append (hwords.append (.treesOf r.separators))

theorem ListRow.Cut.listing {r : ListRow} {rest : List Nest} (h : r.Cut rest) {k : NodeKind}
    (hk : k ∈ NodeKind.lists) : Listing r.nests (r.trees k) := by
  refine .append ?_ (.treesOf r.gap)
  unfold Nest.listTrees
  split
  · next hw =>
    rw [hw]
    exact .treesOf []
  · exact .list hk fun n hn => (Bool.or_eq_false_iff.1 (h.words n hn)).1

theorem CommandRow.held (r : CommandRow) : Held r.nests r.trees := by
  have hcommand : Held r.command [.node .expression (Nest.treesOf r.command)] :=
    (Nest.held_treesOf r.command).node inner_expression (by decide)
  exact (Nest.held_treesOf (r.lead :: r.blanks)).append
    (hcommand.append (Nest.held_treesOf r.tail))

theorem OrderRow.listing {us rest : List Nest} {ts : List Tree} (h : OrderRow us rest ts) :
    Listing us ts := by
  cases h with
  | none => exact .treesOf []
  | @list bar blanks rest r _ _ hr =>
    exact (Listing.treesOf (bar :: blanks)).append (hr.listing (by decide))

theorem EndRow.listing {ns : List Nest} {ts : List Tree} (h : EndRow ns ts) : Listing ns ts := by
  cases h with
  | @command r => exact .node (r.held.node ⟨by decide, by decide⟩ (by decide)) (by decide)
  | plain => exact .treesOf ns

theorem RestRow.listing {ns : List Nest} {continues : Bool} {ts : List Tree}
    (h : RestRow ns continues ts) : Listing ns ts := by
  cases h with
  | assigns _ h => exact .node h (by decide)
  | lists _ hr ho he => exact (hr.listing (by decide)).append (ho.listing.append he.listing)

end Rows

theorem NodeKind.allows_of_isLeading {k : NodeKind} {t : TokenKind} (h : t.isLeading = true) :
    k.allows t = true := by
  cases t with
  | whitespace => rfl
  | recipePrefix => rfl
  | _ => cases h

theorem NodeKind.allows_of_isKeyword {k : NodeKind} {t : TokenKind} (h : t.isKeyword = true) :
    k.allows t = true := by
  cases t with
  | keyword w => rfl
  | _ => cases h

namespace DirectiveRow.Cut

open MakeTree.Nest

variable {r : DirectiveRow}

theorem nodesOf (h : r.Cut) (hs : SoundAll r.nests) :
    Tree.nodesOf (treesOf (r.front ++ r.blanks)) = [] ∧
      Tree.nodesOf (treesOf (r.gap ++ r.ending)) = [] := by
  obtain ⟨hfront, hrest⟩ := soundAll_append.1 hs
  refine ⟨(bares (k := .includeLine) hfront fun n hn => ?_).2.1,
    (bares (k := .includeLine) (soundAll_append.1 hrest).2 fun n hn => ?_).2.1⟩
  · simp only [front, List.mem_append, List.mem_singleton] at hn
    rcases hn with (hn | rfl) | hn
    · exact NodeKind.allows_of_isLeading (h.lead n hn)
    · exact NodeKind.allows_of_isKeyword h.keyword
    · exact Parser.bare_of_isWhitespace (h.blanks n hn)
  · rcases List.mem_append.1 hn with hn | hn
    · exact Parser.bare_of_isWhitespace (h.gap n hn)
    · rcases h.ending n hn with hn | hn
      · exact Parser.bare_of_isComment (by decide) hn
      · exact Parser.bare_of_isLineBreak hn

theorem frames (h : r.Cut) (hs : SoundAll r.nests) {k : NodeKind}
    (hk : k = .includeLine ∨ k = .exportLine) : k.Frames (tokensOf r.front) (tokensOf r.ending) := by
  simp only [nests_eq, soundAll_append] at hs
  obtain ⟨hfront, -, hending⟩ := hs
  rw [tokensOf_eq_map hfront, tokensOf_eq_map hending, front, List.map_append]
  · refine .directive hk (fun t ht => ?_) h.keyword fun t ht => ?_
    · obtain ⟨n, hn, rfl⟩ := List.mem_map.1 ht
      exact h.lead n hn
    · obtain ⟨n, hn, rfl⟩ := List.mem_map.1 ht
      exact (h.ending n hn).imp beq_iff_eq.1 beq_iff_eq.1
  · intro n hn hk
    simpa [isComment, isLineBreak, hk] using h.ending n hn
  · intro n hn hk
    rcases List.mem_append.1 hn with hn | hn
    · have hlead := h.lead n hn
      rw [hk] at hlead
      cases hlead
    · have hkey := h.keyword
      rw [← List.mem_singleton.1 hn, hk] at hkey
      cases hkey

end DirectiveRow.Cut

theorem Placed.writes_words {p : Placed} {k : NodeKind} (hk : k ≠ .condition) {n : Node k}
    (hn : p.tree = n.tree) {front words back : List Nest}
    (hc : n.children = Nest.treesOf front ++ (Nest.wordTrees words ++ Nest.treesOf back))
    (hs : Nest.SoundAll words) (hseat : Nest.Seated p.start (front ++ (words ++ back)))
    (hf : nodesOf (Nest.treesOf front) = []) (hb : nodesOf (Nest.treesOf back) = []) :
    p.Spells (Nest.tokensOf (front ++ (words ++ back))) ∧
      ∃ pieces, Token.Words (Nest.tokensOf words) pieces ∧ p.Writes n.words pieces := by
  have hheld : Parser.Held (front ++ (words ++ back)) n.children := by
    rw [hc]
    exact (Nest.held_treesOf front).append ((Nest.held_wordTrees words).append
      (Nest.held_treesOf back))
  obtain ⟨pieces, hw, hspell⟩ := Nest.spell_wordTrees hs
    (((Nest.held_treesOf front).seat hseat).split.1) (p.depth + 1)
  have hall : Tree.Spell (p.depth + 1) p.start n.children pieces := by
    rw [hc, ← List.nil_append pieces, ← List.append_nil pieces]
    exact (Tree.Spell.of_nodesOf hf).append (hspell.append (.of_nodesOf hb))
  refine ⟨?_, pieces, hw, hall.writes hn⟩
  rw [Placed.Spells, hn]
  exact (Nest.accounts_of_held hk hheld hseat).spells_node p.depth

namespace Lexer

variable {text : Text} {c : Char} {strict : Bool} {t : Tree}

theorem tokens_lines (text : Text) (c : Char) :
    (start text c).tokens = Nest.tokensOf (start text c).lines.flatten := by
  rw [← tokens_rows, rows, Line.flatten_rows]
  rfl

/-- The first line of a rule, cut into its parts, and where it stands. -/
theorem rule_line (h : (start text c).result strict = .ok t) {p : Placed} (hp : p ∈ t.subtrees)
    {r : Rule} (hr : p.tree = r.tree) : ∃ before line used after,
      (start text c).lines = before ++ line :: (used ++ after) ∧
      (start text c).Occupies p (Line.rows before) (Line.rows (line :: used)) (Line.rows after) ∧
      Nest.Seated p.start (line ++ (used ++ after).flatten) ∧ (∀ n ∈ line, Parser.Solid n) ∧
      ∃ (row : TargetRow) (ns : List Nest) (continues : Bool) (vs ts : List Tree),
        line = row.nests ++ ns ∧ r.children = (row.trees ++ vs) ++ ts ∧ row.Cut ns ∧
          RestRow ns continues vs ∧ ∀ u ∈ ts, ∃ k ws, u = .node k ws ∧ k ∈ NodeKind.recipeItems := by
  have hkp : p.tree.kind = .node .rule := by rw [hr]; rfl
  have hu := (refusal_eq_none.1 (result_ok h).1).2
  obtain ⟨line, ls, rest, ⟨before, hb⟩, hseat, hparses⟩ := statementAt_of_kind h hp hkp (.inl rfl)
  obtain ⟨used, rfl, hocc⟩ := occupies_statement hu hb.symm hseat hparses
  have hgood := goodLines hu
  rw [← hb] at hgood
  rw [hr] at hparses
  obtain ⟨hsolid, row, ns, continues, vs, ts, hline, htrees, hrow, hrest, -, hitems⟩ :=
    hparses.rule_rows (hgood line (by simp)) fun l hl => hgood l
      (List.mem_append_right _ (List.mem_cons_of_mem _ hl))
  rw [← List.append_assoc] at htrees
  exact ⟨before, line, used, rest, hb.symm, hocc, hseat, hsolid, row, ns, continues, vs, ts, hline,
    htrees, hrow, hrest, hitems⟩

theorem list_stretch (h : (start text c).result strict = .ok t) {p : Placed} (hp : p ∈ t.subtrees)
    {k : NodeKind} (hk : k ∈ NodeKind.lists) {n : Node k} (hn : p.tree = n.tree) :
    ∃ before mine after, (start text c).lines.flatten = before ++ (mine ++ after) ∧
      Nest.Seated p.start mine ∧ n.children = Nest.wordTrees mine ∧
        ∀ m ∈ mine, m.endsLine = false := by
  have hkp : p.tree.kind = .node k := by rw [hn]; rfl
  obtain he | ⟨q, hq, hpq, j, hj, hkj⟩ := (result_conforming h).parent hp hkp
  · obtain ⟨us, rfl, -⟩ := result_laid h
    rw [he] at hkp
    obtain rfl := Kind.node.inj hkp
    exact absurd hk (by decide)
  obtain rfl : j = .rule := by
    revert hk hkj
    cases k <;> cases j <;> decide
  obtain ⟨r, hr⟩ : ∃ r : Rule, q.tree = r.tree := by
    obtain ⟨us, hq⟩ := eq_node_of_kind hj
    exact ⟨⟨us⟩, hq⟩
  obtain ⟨before, _, used, after, hlines, -, hseat, -, row, ns, continues, vs, ts, rfl, htrees, hrow,
    hrest, hitems⟩ := rule_line h hq hr
  rw [Placed.parts, hr, Node.tree, Tree.children, htrees, seats_append] at hpq
  rcases List.mem_append.1 hpq with hpq | hpq
  · obtain ⟨us, mine, vs, hsplit, hmine, hwords, hall⟩ :=
      (hrow.listing.append hrest.listing).stretch hseat.split.1 hpq hk hn
    refine ⟨before.flatten ++ us, mine, vs ++ (used ++ after).flatten, ?_, hmine, hwords, hall⟩
    rw [hlines, List.flatten_append, List.flatten_cons, hsplit]
    simp
  · have hm : p.tree ∈ ts := by
      rw [← map_tree_seats (q.depth + 1) _ ts]
      exact List.mem_map_of_mem hpq
    obtain ⟨i, ws, hi, hik⟩ := hitems _ hm
    rw [hi] at hkp
    obtain rfl := Kind.node.inj hkp
    have hnot : i ∉ NodeKind.recipeItems := by
      clear hik
      revert hk
      cases i <;> decide
    exact absurd hik hnot

theorem directive_stretch (h : (start text c).result strict = .ok t) {p : Placed}
    (hp : p ∈ t.subtrees) {k : NodeKind} (hk : k = .includeLine ∨ k = .exportLine) {n : Node k}
    (hn : p.tree = n.tree) : ∃ (before : List Nest) (r : DirectiveRow) (after : List Nest),
      (start text c).lines.flatten = before ++ (r.nests ++ after) ∧
      Nest.Seated p.start r.nests ∧ n.children = r.trees ∧ r.Cut := by
  have hkp : p.tree.kind = .node k := by rw [hn]; rfl
  obtain ⟨line, ls, rest, ⟨before, hb⟩, hseat, hparses⟩ :=
    statementAt_of_parts h hp hkp (by rcases hk with rfl | rfl <;> decide) fun j hj => by
      rcases hk with rfl | rfl <;> revert hj <;> cases j <;> decide
  have hgood := goodLines (refusal_eq_none.1 (result_ok h).1).2
  rw [← hb] at hgood
  rw [hn] at hparses
  obtain ⟨r, rfl, htrees, hr⟩ := hparses.directive_row (hgood line (by simp)) hk
  rw [List.flatten_cons] at hseat
  refine ⟨before.flatten, r, ls.flatten, ?_, hseat.split.1, htrees, hr⟩
  rw [← hb, List.flatten_append, List.flatten_cons]

theorem soundAll_lines (h : (start text c).result strict = .ok t) :
    Nest.SoundAll (start text c).lines.flatten := by
  rw [flatten_lines]
  exact soundAll_nests (refusal_eq_none.1 (result_ok h).1).2 rfl

end Lexer

/-- The expressions of the node at a place are the words of `span`, which the node has between what
frames them. Around its tokens are the others of the text, and it stands in no expansion. -/
structure Lexer.HasWords (lx : Lexer) (p : Placed) {k : NodeKind} (n : Node k)
    (before front span back after : List Token) : Prop where
  tokens : lx.tokens = before ++ (front ++ (span ++ (back ++ after)))
  level : Token.level 0 before = 0
  spells : p.Spells (front ++ (span ++ back))
  frames : k.Frames front back
  onLine : ∀ t ∈ Token.outer span, t.kind ≠ .comment ∧ t.kind ≠ .lineBreak
  lists : p.Lists n.words span

theorem Nest.onLine_tokensOf {ns : List Nest} (hs : SoundAll ns) (hl : ∀ n ∈ ns, n.endsLine = false) :
    ∀ t ∈ Token.outer (tokensOf ns), t.kind ≠ .comment ∧ t.kind ≠ .lineBreak := by
  intro t ht
  rw [outer_tokensOf (closedAll_of_soundAll hs)] at ht
  obtain ⟨n, hn, rfl⟩ := List.mem_map.1 ht
  obtain ⟨hb, hc⟩ := Bool.or_eq_false_iff.1 (hl n hn)
  exact ⟨beq_eq_false_iff_ne.1 hc, beq_eq_false_iff_ne.1 hb⟩

namespace Lexer

variable {text : Text} {c : Char} {strict : Bool} {t : Tree} {p : Placed} {k : NodeKind} {n : Node k}

theorem list_hasWords (h : (start text c).result strict = .ok t) (hp : p ∈ t.subtrees)
    (hk : k ∈ NodeKind.lists) (hn : p.tree = n.tree) : ∃ before span after,
      (start text c).HasWords p n before [] span [] after := by
  obtain ⟨before, mine, after, hlines, hseat, hwords, hall⟩ := list_stretch h hp hk hn
  have hs := soundAll_lines h
  rw [hlines] at hs
  obtain ⟨hbefore, hs⟩ := Nest.soundAll_append.1 hs
  have hmine := (Nest.soundAll_append.1 hs).1
  have hkc : k ≠ .condition := by
    rintro rfl
    exact absurd hk (by decide)
  have hseat : Nest.Seated p.start ([] ++ (mine ++ [])) := by simpa using hseat
  have hchildren : n.children = Nest.treesOf [] ++ (Nest.wordTrees mine ++ Nest.treesOf []) :=
    hwords.trans (List.append_nil _).symm
  obtain ⟨hspells, pieces, hw, hwrites⟩ :=
    Placed.writes_words hkc hn hchildren hmine hseat rfl rfl
  refine ⟨Nest.tokensOf before, Nest.tokensOf mine, Nest.tokensOf after, ?_,
    Nest.level_tokensOf (Nest.closedAll_of_soundAll hbefore) 0, by simpa using hspells, .list hk,
    Nest.onLine_tokensOf hmine hall, hwrites.lists hw⟩
  rw [tokens_lines, hlines, Nest.tokensOf_append, Nest.tokensOf_append]
  rfl

theorem directive_hasWords (h : (start text c).result strict = .ok t) (hp : p ∈ t.subtrees)
    (hk : k = .includeLine ∨ k = .exportLine) (hn : p.tree = n.tree) :
    ∃ before front span back after,
      (start text c).HasWords p n before front span back after := by
  obtain ⟨before, r, after, hlines, hseat, htrees, hr⟩ := directive_stretch h hp hk hn
  have hs := soundAll_lines h
  rw [hlines] at hs
  obtain ⟨hbefore, hs⟩ := Nest.soundAll_append.1 hs
  have hrow := (Nest.soundAll_append.1 hs).1
  have hparts := hrow
  simp only [DirectiveRow.nests, Nest.soundAll_append] at hparts
  obtain ⟨⟨-, hblanks⟩, hwords, hgap, -⟩ := hparts
  have hkc : k ≠ .condition := by rcases hk with rfl | rfl <;> decide
  obtain ⟨hf, hb⟩ := hr.nodesOf hrow
  obtain ⟨hspells, pieces, hw, hwrites⟩ := Placed.writes_words hkc hn htrees hwords hseat hf hb
  change p.Spells (Nest.tokensOf r.nests) at hspells
  -- the blanks beside the words are no words
  have hspan : Token.Words (Nest.tokensOf r.span) pieces := by
    rw [DirectiveRow.span, Nest.tokensOf_append, Nest.tokensOf_append]
    exact (hw.append_blanks (Nest.tokensOf_blanks hgap hr.gap)).blanks_append
      (Nest.tokensOf_blanks hblanks hr.blanks)
  refine ⟨Nest.tokensOf before, Nest.tokensOf r.front, Nest.tokensOf r.span,
    Nest.tokensOf r.ending, Nest.tokensOf after, ?_,
    Nest.level_tokensOf (Nest.closedAll_of_soundAll hbefore) 0, ?_, hr.frames hrow hk,
    Nest.onLine_tokensOf ?_ hr.onLine, hwrites.lists hspan⟩
  · simp only [tokens_lines, hlines, r.nests_eq, Nest.tokensOf_append, List.append_assoc]
  · simpa only [r.nests_eq, Nest.tokensOf_append, List.append_assoc] using hspells
  · exact Nest.soundAll_append.2 ⟨hblanks, Nest.soundAll_append.2 ⟨hwords, hgap⟩⟩

end Lexer

/-- The expressions in a list of a rule or in a directive are the words of the tokens that stand
there: no word is lost, split or merged. -/
theorem parse_wordLists {text : Text} {options : Options} {t : Tree}
    (h : (parse text options).result = .ok t) {p : Placed} (hp : p ∈ t.subtrees) {k : NodeKind}
    (hk : k ∈ NodeKind.lists ∨ k = .includeLine ∨ k = .exportLine) {n : Node k}
    (hn : p.tree = n.tree) : ∃ before front span back after,
      (Lexer.start text options.recipePrefix).HasWords p n before front span back after := by
  rw [parse_result_start] at h
  rcases hk with hk | hk
  · obtain ⟨before, span, after, hw⟩ := Lexer.list_hasWords h hp hk hn
    exact ⟨before, [], span, [], after, hw⟩
  · exact Lexer.directive_hasWords h hp hk hn

/-- With a blank in an expansion, which is part of the word around it. -/
theorem parse_wordLists_expansion : ∃ (t : Tree) (p : Placed) (n : IncludeLine),
    (parse "include a $(b c)d\n".toList {}).result = .ok t ∧ p ∈ t.subtrees ∧ p.tree = n.tree ∧
      n.words.length = 2 ∧ ∃ before front span back after,
        (Lexer.start "include a $(b c)d\n".toList '\t').HasWords p n before front span back after := by
  let n : IncludeLine := ⟨[.leaf (.token (.keyword .includeFile)) "include".toList,
    .leaf (.token .whitespace) [' '],
    .node .expression [.leaf (.token .plainText) ['a']],
    .leaf (.token .whitespace) [' '],
    .node .expression [
      .node .expansion [.leaf (.token .expansionPrefix) ['$', '('],
        .node .expression [.leaf (.token .plainText) ['b']],
        .leaf (.token .whitespace) [' '],
        .node .expression [.leaf (.token .plainText) ['c']],
        .leaf (.token .expansionSuffix) [')']],
      .leaf (.token .plainText) ['d']],
    .leaf (.token .lineBreak) ['\n']]⟩
  have h : (parse "include a $(b c)d\n".toList {}).result = .ok (.node .root [n.tree]) := by cbv
  have hp : (⟨1, 0, n.tree⟩ : Placed) ∈ (Tree.node .root [n.tree]).subtrees :=
    List.mem_cons_of_mem _ List.mem_cons_self
  exact ⟨_, _, n, h, hp, rfl, rfl, parse_wordLists h hp (.inr (.inl rfl)) rfl⟩

end MakeTree
