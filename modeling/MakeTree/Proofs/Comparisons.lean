import Mathlib
import MakeTree.Proofs.Grammar.Conditionals
import MakeTree.Proofs.Grammar.RuleTokens
import MakeTree.Proofs.Reached
import MakeTree.Proofs.TreeGrammar
import MakeTree.Proofs.WordLists

/-!
Comparisons in parentheses (`parse_comparisons`). The test of an `ifeq` or `ifneq` that is not in
quotes is two operands with a comma between them, in literal parentheses. Parentheses in an operand
match each other, so the comma is the first outside of these and the test ends with the parenthesis
that matches the first. A line whose test is not such a comparison, on one row and with nothing but a
comment behind it, is refused.
-/

namespace MakeTree

namespace Token

/-- Literal parentheses outside of expansions match each other, and no expansion is left open. -/
structure Balanced (ts : List Token) : Prop where
  level : level 0 ts = 0
  low : ∀ us, us <+: outer ts → 0 ≤ parens us
  closed : parens (outer ts) = 0

/-- Each comma outside of expansions stands in literal parentheses. -/
def CommaFree (ts : List Token) : Prop :=
  ∀ us t, us ++ [t] <+: outer ts → t.kind = .comma → 0 < parens us

/-- One side of a comparison. -/
structure IsOperand (ts : List Token) : Prop where
  balanced : Balanced ts
  first : ∀ t ∈ ts.head?, t.kind ≠ .whitespace
  last : ∀ t ∈ ts.getLast?, t.kind ≠ .whitespace

theorem Balanced.append {us vs : List Token} (h : Balanced us) (h' : Balanced vs) :
    Balanced (us ++ vs) where
  level := by rw [level_append, h.level, h'.level]
  low ws hws := by
    rw [outer_append h.level] at hws
    rcases List.prefix_or_prefix_of_prefix hws (List.prefix_append _ _) with hw | ⟨xs, rfl⟩
    · exact h.low ws hw
    · rw [parens_append, h.closed, Int.zero_add]
      exact h'.low xs ((List.prefix_append_right_inj _).1 hws)
  closed := by rw [outer_append h.level, parens_append, h.closed, h'.closed, Int.zero_add]

theorem CommaFree.append {us vs : List Token} (h : CommaFree us) (hb : Balanced us)
    (h' : CommaFree vs) : CommaFree (us ++ vs) := by
  intro ws t hws ht
  rw [outer_append hb.level] at hws
  rcases List.prefix_or_prefix_of_prefix hws (List.prefix_append _ _) with hw | hw
  · exact h ws t hw ht
  · rcases List.prefix_concat_iff.1 hw with he | ⟨xs, rfl⟩
    · exact h ws t (he ▸ List.prefix_refl _) ht
    · rw [List.append_assoc, List.prefix_append_right_inj] at hws
      rw [parens_append, hb.closed, Int.zero_add]
      exact h' xs t hws ht

theorem balanced_of_kind {ts : List Token} (h : ∀ t ∈ ts, t.kind = .whitespace ∨ t.kind = .comma) :
    Balanced ts := by
  have hk : ∀ t ∈ ts, t.kind ≠ .expansionPrefix ∧ t.kind ≠ .expansionSuffix := fun t ht => by
    rcases h t ht with hk | hk <;> rw [hk] <;> decide
  have hzero (us : List Token) (hus : us ⊆ ts) : parens us = 0 := by
    refine parens_of_kind fun t ht => ?_
    rcases h t (hus ht) with hk | hk <;> rw [hk] <;> decide
  refine ⟨(leveled_of_kind hk 0).1, fun us hus => ?_, ?_⟩
  · rw [outer_of_kind hk] at hus
    rw [hzero us hus.subset]
  · rw [outer_of_kind hk, hzero ts (List.Subset.refl ts)]

theorem commaFree_of_blanks {ts : List Token} (h : ∀ t ∈ ts, t.kind = .whitespace) :
    CommaFree ts := by
  intro us t hus ht
  have hk : ∀ t ∈ ts, t.kind ≠ .expansionPrefix ∧ t.kind ≠ .expansionSuffix := fun t ht => by
    rw [h t ht]
    decide
  rw [outer_of_kind hk] at hus
  rw [h t (hus.subset (List.mem_append_right us List.mem_cons_self))] at ht
  cases ht

/-- The kind of the token that a line starts with, behind what leads that. -/
def keyword? (row : List Token) : Option TokenKind :=
  (row.dropWhile (·.kind.isLeading)).head?.map Token.kind

/-- What stands on a line behind the first token and the blanks there. -/
def test (row : List Token) : List Token :=
  (row.dropWhile (·.kind.isLeading)).tail.dropWhile isBlank

/-- Behind the blanks there is nothing but a comment and the line break. -/
def EndsRow (ts : List Token) : Prop :=
  ∀ t ∈ ts.dropWhile isBlank, t.kind = .comment ∨ t.kind = .lineBreak

end Token

/-- Tokens that make a comparison in parentheses. -/
structure Comparison where
  opener : Token
  lead : List Token
  left : List Token
  gap : List Token
  comma : Token
  blanks : List Token
  right : List Token
  tail : List Token
  closer : Token

namespace Comparison

open MakeTree.Token

/-- What stands in front of the comma, in the parentheses. -/
def front (s : Comparison) : List Token := s.lead ++ (s.left ++ s.gap)

def inside (s : Comparison) : List Token :=
  s.front ++ s.comma :: (s.blanks ++ (s.right ++ s.tail))

def tokens (s : Comparison) : List Token := s.opener :: (s.inside ++ [s.closer])

/-- The tokens come apart into two operands. The left one has no comma of its own. -/
structure Divides (s : Comparison) : Prop where
  opener : s.opener.isText ['('] = true
  lead : ∀ t ∈ s.lead, t.kind = .whitespace
  left : IsOperand s.left
  commas : CommaFree s.left
  gap : ∀ t ∈ s.gap, t.kind = .whitespace
  comma : s.comma.kind = .comma
  blanks : ∀ t ∈ s.blanks, t.kind = .whitespace
  right : IsOperand s.right
  tail : ∀ t ∈ s.tail, t.kind = .whitespace
  closer : s.closer.isText [')'] = true

/-- The comparison is all there is to the test of a line, and stands on one row. -/
structure IsTest (s : Comparison) (test : List Token) : Prop where
  divides : s.Divides
  row : ∀ t ∈ s.tokens, t.kind ≠ .lineBreak
  ends : ∃ after, test = s.tokens ++ after ∧ EndsRow after

variable {s : Comparison} (h : s.Divides)

include h

theorem Divides.commaFree_front : CommaFree s.front :=
  (commaFree_of_blanks h.lead).append (balanced_of_kind fun t ht => .inl (h.lead t ht))
    (h.commas.append h.left.balanced (commaFree_of_blanks h.gap))

theorem Divides.balanced_inside : Balanced s.inside := by
  have hlead : Balanced s.lead := balanced_of_kind fun t ht => .inl (h.lead t ht)
  have hgap : Balanced s.gap := balanced_of_kind fun t ht => .inl (h.gap t ht)
  have htail : Balanced s.tail := balanced_of_kind fun t ht => .inl (h.tail t ht)
  have hmiddle : Balanced (s.comma :: s.blanks) :=
    balanced_of_kind (List.forall_mem_cons.2 ⟨.inr h.comma, fun t ht => .inl (h.blanks t ht)⟩)
  exact (hlead.append (h.left.balanced.append hgap)).append
    (hmiddle.append (h.right.balanced.append htail))

end Comparison

namespace Nest

open MakeTree.Token

theorem Side.isOperand {stop : Nest → Bool} {us : List Nest} (h : Side stop us) (hs : SoundAll us) :
    IsOperand (tokensOf us) where
  balanced := by
    have ho := outer_tokensOf (closedAll_of_soundAll hs)
    refine ⟨level_tokensOf (closedAll_of_soundAll hs) 0, fun ws hws => ?_, ?_⟩
    · rw [ho] at hws
      obtain ⟨ms, hms, rfl⟩ := List.prefix_map_iff.1 hws
      exact h.low ms hms
    · rw [ho]
      exact h.closed
  first t ht := by
    rw [head?_tokensOf] at ht
    obtain ⟨n, hn, rfl⟩ := Option.map_eq_some_iff.1 ht
    exact beq_eq_false_iff_ne.1 (h.first n hn)
  last t ht := by
    obtain ⟨hne, rfl⟩ := List.mem_getLast?_eq_getLast ht
    exact beq_eq_false_iff_ne.1 (getLast_tokensOf hs h.last hne)

theorem Side.commaFree {us : List Nest} (h : Side ComparisonRow.endsLeft us) (hs : SoundAll us) :
    CommaFree (tokensOf us) := by
  intro ws t hws ht
  rw [outer_tokensOf (closedAll_of_soundAll hs)] at hws
  obtain ⟨ms, hms, he⟩ := List.prefix_map_iff.1 hws
  obtain ⟨us', vs, rfl, rfl, hv⟩ := List.map_eq_append_iff.1 he.symm
  obtain ⟨n, rfl, rfl⟩ := List.map_eq_singleton_iff.1 hv
  refine h.inside us' n hms ?_
  have hk : n.kind = .comma := ht
  rw [ComparisonRow.endsLeft, hk]
  rfl

theorem endsRow_tokensOf {ns : List Nest} (hs : SoundAll ns)
    (h : ∀ n ∈ ns.dropWhile isWhitespace, n.isComment = true ∨ n.isLineBreak = true) :
    EndsRow (tokensOf ns) := by
  have hkind (n : Nest) (hn : n ∈ ns.dropWhile isWhitespace) :
      n.kind = .comment ∨ n.kind = .lineBreak := by
    simpa only [isComment, isLineBreak, beq_iff_eq] using h n hn
  have hdrop : (tokensOf ns).dropWhile Token.isBlank = tokensOf (ns.dropWhile isWhitespace) :=
    dropWhile_tokensOf (q := (· == .whitespace)) rfl hs
  obtain ⟨-, hs⟩ := soundAll_append.1
    ((List.takeWhile_append_dropWhile (p := isWhitespace) (l := ns)).symm ▸ hs)
  rw [EndsRow, hdrop, tokensOf_eq_map hs fun n hn => by rcases hkind n hn with hk | hk <;> simp [hk]]
  intro t ht
  obtain ⟨n, hn, rfl⟩ := List.mem_map.1 ht
  exact hkind n hn

theorem not_lineBreak_of_solid {us ms : List Nest} (hsolid : ∀ n ∈ us, Parser.Solid n)
    (hl : Single (us ++ ms)) (hlast : ∀ n ∈ us.getLast?, n.isLineBreak = false) :
    ∀ t ∈ tokensOf us, t.kind ≠ .lineBreak := by
  intro t ht hk
  obtain ⟨m, hm, rfl⟩ := List.mem_map.1 ht
  obtain ⟨n, hn, hm⟩ := mem_flattenAll hm
  have hbreak := hsolid n hn m hm (beq_iff_eq.2 hk)
  obtain ⟨xs, ys, rfl⟩ := List.append_of_mem hn
  rw [List.append_assoc, List.cons_append] at hl
  obtain ⟨rfl, rfl⟩ := List.append_eq_nil_iff.1 (hl xs n _ rfl hbreak)
  rw [hlast n List.getLast?_concat] at hbreak
  cases hbreak

end Nest

namespace ComparisonRow

open MakeTree.Nest MakeTree.Tree

def comparison (r : ComparisonRow) : Comparison where
  opener := r.opener.token
  lead := tokensOf r.lead
  left := tokensOf r.left
  gap := tokensOf r.gap
  comma := r.comma.token
  blanks := tokensOf r.blanks
  right := tokensOf r.right
  tail := tokensOf r.tail
  closer := r.closer.token

namespace Cut

variable {r : ComparisonRow} (h : r.Cut) (hs : SoundAll r.nests)

include h hs

theorem divides : r.comparison.Divides := by
  simp only [nests, front, middle, back, soundAll_append, SoundAll] at hs
  obtain ⟨⟨-, hlead⟩, hleft, ⟨hgap, -, hblanks⟩, hright, htail, -⟩ := hs
  exact ⟨h.opener, tokensOf_blanks hlead h.lead, h.left.isOperand hleft, h.left.commaFree hleft,
    tokensOf_blanks hgap h.gap, h.comma, tokensOf_blanks hblanks h.blanks,
    h.right.isOperand hright, tokensOf_blanks htail h.tail, h.closer⟩

theorem tokens_eq : r.comparison.tokens = tokensOf r.nests := by
  simp only [nests, front, middle, back, soundAll_append, SoundAll] at hs
  obtain ⟨⟨hopener, -⟩, -, ⟨-, hcomma, -⟩, -, -, hcloser, -⟩ := hs
  have text {n : Nest} {t : Text} (hn : n.isText t = true) : n.kind ≠ .expansionPrefix := by
    rw [kind_of_isText hn]
    decide
  have hc : r.comma.kind ≠ .expansionPrefix := by
    rw [h.comma]
    decide
  simp only [nests, front, middle, back, tokensOf_append, List.cons_append, comparison,
    Comparison.tokens, Comparison.inside, Comparison.front, List.append_assoc,
    tokensOf_cons_token hopener (text h.opener), tokensOf_cons_token hcomma hc,
    tokensOf_cons_token hcloser (text h.closer)]
  rfl

theorem not_lineBreak {ms : List Nest} (hsolid : ∀ n ∈ r.nests, Parser.Solid n)
    (hl : Single (r.nests ++ ms)) :
    ∀ t ∈ r.comparison.tokens, t.kind ≠ .lineBreak := by
  rw [h.tokens_eq hs]
  refine not_lineBreak_of_solid hsolid hl fun n hn => ?_
  obtain rfl : r.closer = n := by simpa [nests, back] using hn
  simp [isLineBreak, kind_of_isText h.closer]

theorem bares : Laid .condition r.front (treesOf r.front) ∧
    Laid .condition r.middle (treesOf r.middle) ∧ Laid .condition r.back (treesOf r.back) ∧
    nodesOf (treesOf r.front) = [] ∧ nodesOf (treesOf r.middle) = [] ∧
    nodesOf (treesOf r.back) = [] := by
  simp only [nests, soundAll_append] at hs
  obtain ⟨hfront, -, hmiddle, -, hback⟩ := hs
  have blank {n : Nest} (hn : n.isWhitespace = true) :
      NodeKind.condition.allows n.kind = true := Parser.bare_of_isWhitespace hn
  obtain ⟨h₁, h₂, -⟩ := Nest.bares (k := .condition) hfront (List.forall_mem_cons.2
    ⟨Parser.bare_of_isText h.opener, fun n hn => blank (h.lead n hn)⟩)
  obtain ⟨h₃, h₄, -⟩ := Nest.bares (k := .condition) hmiddle (List.forall_mem_append.2
    ⟨fun n hn => blank (h.gap n hn), List.forall_mem_cons.2 ⟨by rw [h.comma]; rfl,
      fun n hn => blank (h.blanks n hn)⟩⟩)
  obtain ⟨h₅, h₆, -⟩ := Nest.bares (k := .condition) hback (List.forall_mem_append.2
    ⟨fun n hn => blank (h.tail n hn), List.forall_mem_singleton.2
      (Parser.bare_of_isText h.closer)⟩)
  exact ⟨h₁, h₃, h₅, h₂, h₄, h₆⟩

/-- The trees of a comparison hold its nests in a condition, where literals in quotes would be read
in another way. -/
theorem reading : Reading (fun _ => True) .condition (flattenAll r.nests) r.trees := by
  obtain ⟨hfront, hmiddle, hback, -⟩ := h.bares hs
  have operand (us : List Nest) : Reading (fun _ => True) .condition (flattenAll us)
      [.node .expression (treesOf us)] :=
    .node trivial (reading_treesOf trivial trivial us (by decide))
  simp only [nests, flattenAll_append]
  exact hfront.reading.append ((operand r.left).append (hmiddle.reading.append
    ((operand r.right).append hback.reading)))

theorem spells {q : Placed} {c : Condition} (hq : q.tree = c.tree) (hc : c.children = r.trees)
    (hseat : Seated q.start r.nests) : q.Spells r.comparison.tokens ∧
      q.Writes c.words [r.comparison.left, r.comparison.right] := by
  obtain ⟨-, -, -, hfront, hmiddle, hback⟩ := h.bares hs
  constructor
  · rw [h.tokens_eq hs, Placed.Spells, hq, Node.tree, hc]
    exact ((h.reading hs).accounts_flattenAll hseat).spells_node q.depth
  · have hleft := ((held_treesOf r.front).seat hseat)
    have hl : Parser.Held r.left [.node .expression (treesOf r.left)] :=
      (held_treesOf r.left).node Parser.inner_expression (by decide)
    have hright := (held_treesOf r.middle).seat (hl.seat hleft)
    have hspell : Spell (q.depth + 1) q.start c.children ([] ++ ([tokensOf r.left] ++ ([] ++
        ([tokensOf r.right] ++ [])))) := by
      rw [hc]
      refine (Spell.of_nodesOf hfront).append ((Spell.expression ?_).append
        ((Spell.of_nodesOf hmiddle).append ((Spell.expression ?_).append (.of_nodesOf hback))))
      · exact accounts_of_held (by decide) (held_treesOf r.left) hleft.split.1
      · exact accounts_of_held (by decide) (held_treesOf r.right) hright.split.1
    exact hspell.writes hq

end Cut

end ComparisonRow

namespace HeaderRow

open MakeTree.Nest MakeTree.Tree

variable {r : HeaderRow} {test rest : List Nest}

theorem Cut.conditional? (h : r.Cut test rest) (hs : SoundAll r.front) {k : ConditionalKind}
    (hk : r.keyword.kind = .keyword (.conditional k)) (ts : List Tree) :
    conditional? (r.trees ++ ts) = some k := by
  have hallow : ∀ n ∈ r.front, NodeKind.root.allows n.kind = true := by
    refine List.forall_mem_append.2 ⟨fun n hn => ?_, List.forall_mem_cons.2 ⟨?_, fun n hn => ?_⟩⟩
    · exact NodeKind.allows_of_isLeading (h.lead.all n hn)
    · rw [hk]
      rfl
    · exact Parser.bare_of_isWhitespace (h.blanks.all n hn)
  have hfront : Tree.conditional? (treesOf r.front) = some k := by
    unfold Tree.conditional? Node.conditionalKind?
    rw [Node.tokens_eq, (Nest.bares hs hallow).2.2, front, List.map_append, List.findSome?_append,
      List.findSome?_eq_none_iff.2]
    · rw [List.map_cons, hk]
      rfl
    · intro m hm
      obtain ⟨n, hn, rfl⟩ := List.mem_map.1 hm
      have hlead := h.lead.all n hn
      cases hw : n.kind with
      | keyword w =>
        rw [hw] at hlead
        cases hlead
      | _ => rfl
  rw [trees, List.append_assoc, Tree.conditional?_append, hfront]
  rfl

theorem Cut.tokens (h : r.Cut test rest) (hs : SoundAll (r.front ++ test)) :
    Token.keyword? (tokensOf (r.front ++ test)) = some r.keyword.kind ∧
      (r.keyword.kind ≠ .expansionPrefix → Token.test (tokensOf (r.front ++ test)) = tokensOf test) := by
  have hline : r.front ++ test = r.lead ++ r.keyword :: (r.blanks ++ test) := by simp [front]
  have hdrop := dropWhile_tokensOf (q := TokenKind.isLeading) rfl hs
  rw [hline] at hs ⊢
  rw [hline, h.lead.dropWhile] at hdrop
  obtain ⟨-, hkeyword, hs⟩ := soundAll_append.1 hs
  rw [Token.keyword?, Token.test, hdrop]
  constructor
  · rw [head?_tokensOf]
    rfl
  · intro hk
    have hblanks : (tokensOf (r.blanks ++ test)).dropWhile Token.isBlank =
        tokensOf ((r.blanks ++ test).dropWhile isWhitespace) :=
      dropWhile_tokensOf (q := (· == .whitespace)) rfl hs
    rw [tokensOf_cons_token hkeyword hk, List.tail_cons, hblanks, h.blanks.dropWhile]

theorem Cut.comparison (h : r.Cut test rest) (hd : ∀ k, r.keyword.kind = .keyword (.conditional k) →
      ¬ (k = .ifdef ∨ k = .ifndef))
    (hq : ¬ (test.head?.any (·.kind == .stringLiteral) = true ∧ ∃ t ∈ r.test, t.kind = .leaf .quote)) :
    ∃ c : ComparisonRow, test = c.nests ++ (r.ending ++ rest) ∧ r.test = c.trees ∧ c.Cut := by
  have hrow := h.row
  generalize r.test = ts at hrow hq ⊢
  generalize r.ending ++ rest = ms at hrow ⊢
  cases hrow with
  | name hk hdef => exact absurd hdef (hd _ hk)
  | quoted hn hquote => exact absurd ⟨hn, hquote⟩ hq
  | @comparison _ c hc => exact ⟨c, rfl, rfl, hc⟩

end HeaderRow

namespace Lexer

open MakeTree.Tree MakeTree.Parser

variable {text : Text} {c : Char} {strict : Bool} {t : Tree} {p : Placed} {k : NodeKind}

theorem conditional_parents {j : NodeKind} (hkj : k ∈ j.parts)
    (hin : k ∈ [.conditional, .recipeConditional, .elseBranch, .recipeBranch]) :
    k = .conditional ∧ (j = .root ∨ j = .branch) ∨
      k = .recipeConditional ∧ (j = .rule ∨ j = .recipeBranch) ∨
      j ∈ [.conditional, .recipeConditional, .elseBranch] := by
  revert hin hkj
  cases k <;> cases j <;> decide

section Origins

variable {q : Placed} (h : (start text c).result strict = .ok t) (hq : q ∈ t.subtrees)
  (hpq : p ∈ q.parts)

include h hq hpq

theorem origin_statement (hj : q.tree.kind = .node .root ∨ q.tree.kind = .node .branch)
    (hk : p.tree.kind = .node .conditional) :
    Origin (start text c).lines.flatten p .conditional := by
  have hgood := goodLines (refusal_eq_none.1 (result_ok h).1).2
  obtain ⟨line, lines, hsuf, hocc⟩ := (statementAt_of_parent h hq hj hpq hk).occurs
  obtain ⟨vs, ht⟩ := eq_node_of_kind hk
  rw [ht] at hocc
  have hline : line.Good := hgood line (hsuf.subset List.mem_cons_self)
  have hocc := hocc.statement_conditional hline
    (hgood.suffix ((List.suffix_cons _ _).trans hsuf))
  rw [← ht] at hocc
  exact .conditional hocc

theorem origin_recipe (hj : q.tree.kind = .node .rule)
    (hk : p.tree.kind = .node .recipeConditional) :
    Origin (start text c).lines.flatten p .recipeConditional := by
  have hu := (refusal_eq_none.1 (result_ok h).1).2
  obtain ⟨line, lines, hsuf, hocc⟩ := (statementAt_of_kind h hq hj (.inl rfl)).occurs
  have hline := hsuf.subset List.mem_cons_self
  obtain ⟨vs, ht⟩ := eq_node_of_kind hj
  rw [ht] at hocc
  rw [Placed.parts, ht] at hpq
  exact hocc.rule_part (goodLines hu line hline)
    ((goodLines hu).suffix ((List.suffix_cons _ _).trans hsuf))
    ((sheet_lines hu).below line hline) hpq hk

end Origins

theorem origin (h : (start text c).result strict = .ok t) (hp : p ∈ t.subtrees)
    (hk : p.tree.kind = .node k)
    (hin : k ∈ [.conditional, .recipeConditional, .elseBranch, .recipeBranch]) :
    Origin (start text c).lines.flatten p k := by
  induction hd : p.depth using Nat.strong_induction_on generalizing p k with
  | _ depth ih =>
    obtain he | ⟨q, hq, hpq, j, hj, hkj⟩ := (result_conforming h).parent hp hk
    · obtain ⟨us, rfl, -⟩ := result_laid h
      rw [he] at hk
      obtain rfl := Kind.node.inj hk
      exact absurd hin (by decide)
    · have hn : k ∉ [.condition, .expression, .expansion] := by
        clear hk hj hkj
        revert hin
        cases k <;> decide
      have hparent (hj' : j ∈ [.conditional, .recipeConditional, .elseBranch, .recipeBranch]) :
          Origin (start text c).lines.flatten q j := by
        have := depth_of_mem_parts hpq
        exact ih q.depth (by omega) hq hj hj' rfl
      rcases conditional_parents hkj hin with ⟨rfl, rfl | rfl⟩ | ⟨rfl, rfl | rfl⟩ | hj'
      · exact origin_statement h hq hpq (.inl hj) hk
      · exact origin_statement h hq hpq (.inr hj) hk
      · exact origin_recipe h hq hpq hj hk
      · exact (hparent (by decide)).part hj hpq hk hn (by decide) fun _ => rfl
      · refine (hparent ?_).part hj hpq hk hn ?_ ?_
        · clear hj hkj
          revert hj'
          cases j <;> decide
        · rintro rfl
          exact absurd hj' (by decide)
        · rintro rfl
          exact absurd hj' (by decide)

end Lexer

/-- The condition at a place is the comparison `s`, and its expressions are the operands. Around the
tokens of the condition are the others of the text, and it stands in no expansion. -/
structure Lexer.HasComparison (lx : Lexer) (q : Placed) (c : Condition) (before : List Token)
    (s : Comparison) (after : List Token) : Prop where
  tokens : lx.tokens = before ++ (s.tokens ++ after)
  level : Token.level 0 before = 0
  spells : q.Spells s.tokens
  divides : s.Divides
  operands : q.Writes c.words [s.left, s.right]

namespace Lexer

open MakeTree.Tree MakeTree.Parser

variable {text : Text} {ch : Char} {strict : Bool} {t : Tree} {p q : Placed} {k : NodeKind}

theorem hasComparison (h : (start text ch).result strict = .ok t) (hp : p ∈ t.subtrees)
    (hk : k = .conditional ∨ k = .recipeConditional) {n : Node k} (hn : p.tree = n.tree)
    (hc : n.conditionalKind? = some .ifeq ∨ n.conditionalKind? = some .ifneq) (hq : q ∈ p.parts)
    {c : Condition} (hqc : q.tree = c.tree) (hquoted : c.isQuoted = false) :
    ∃ before s after, (start text ch).HasComparison q c before s after := by
  have hs := soundAll_lines h
  have hkind : p.tree.kind = .node k := by rw [hn]; rfl
  have horigin := origin h hp hkind (by rcases hk with rfl | rfl <;> decide)
  obtain ⟨ctx, line, lines, rfl, hocc⟩ := horigin.occurs hk
  rw [hn] at hocc
  have hpart : q ∈ seats (p.depth + 1) p.start n.children := by rwa [Placed.parts, hn] at hq
  obtain ⟨r, test, ts, rfl, hr, hchildren, hplace⟩ :=
    hocc.condition_part hpart (by rw [hqc]; rfl)
  obtain ⟨before, hfile⟩ := hocc.suffix
  have hseat := hocc.seated
  rw [Task.line, List.append_assoc] at hfile hseat
  rw [← hfile] at hs
  obtain ⟨hbefore, hs⟩ := Nest.soundAll_append.1 hs
  obtain ⟨hfront, hs⟩ := Nest.soundAll_append.1 hs
  have htest : c.children = r.test := by
    have he := congrArg Placed.tree hplace
    rw [hqc] at he
    exact (Tree.node.inj he).2
  have hkeyword (j : ConditionalKind) (hj : r.keyword.kind = .keyword (.conditional j)) :
      ¬ (j = .ifdef ∨ j = .ifndef) := by
    have hfirst : n.conditionalKind? = some j := by
      have hf := hr.conditional? hfront hj ts
      rwa [← hchildren] at hf
    rw [hfirst] at hc
    rintro (rfl | rfl) <;> rcases hc with hc | hc <;> cases hc
  obtain ⟨row, rfl, hrow, hcut⟩ := hr.comparison hkeyword (by
    rintro ⟨-, u, hu, hquote⟩
    rw [← htest] at hu
    exact List.any_eq_false.1 hquoted u hu (beq_iff_eq.2 hquote))
  rw [List.append_assoc] at hs hfile hseat
  have hrowsound := (Nest.soundAll_append.1 hs).1
  have hstart : q.start = p.start + (textOf (Nest.treesOf r.front)).byteSize := by rw [hplace]
  have hqseat : Nest.Seated q.start row.nests := by
    rw [hstart]
    exact ((Nest.held_treesOf r.front).seat hseat).split.1
  obtain ⟨hspells, hwrites⟩ := hcut.spells hrowsound hqc (htest.trans hrow) hqseat
  refine ⟨Nest.tokensOf (before ++ r.front), row.comparison,
    Nest.tokensOf (r.ending ++ [] ++ lines.flatten), ?_, ?_, hspells, hcut.divides hrowsound, hwrites⟩
  · rw [tokens_lines, ← hfile, hcut.tokens_eq hrowsound]
    simp only [Nest.tokensOf_append, List.append_assoc]
  · exact Nest.level_tokensOf (Nest.closedAll_of_soundAll
      (Nest.soundAll_append.2 ⟨hbefore, hfront⟩)) 0

theorem conditional_fails {ctx : Context} {line : Line} {e : ParseError} {s : Cursor}
    (h : conditionalHeader ⟨line, [], []⟩ = .error e s) (lines : List Line) :
    Task.Fails (.conditional ctx line) lines e := by
  show Parser.Fails (Parser.conditional ctx lines) line e
  rw [conditional_eq]
  exact ((fails_of_error sim_conditionalHeader h).bind).within ctx.node

theorem soundAll_of_reaches {ctx : Context} {line : Line} {lines : List Line}
    (h : (start text ch).Reaches (.conditional ctx line) lines)
    (hu : (start text ch).unclosed? = none) : Nest.SoundAll line := by
  obtain ⟨-, us, before, hb⟩ := h.on
  have hall : Nest.SoundAll (start text ch).lines.flatten := by
    rw [flatten_lines]
    exact soundAll_nests hu rfl
  rw [← hb, List.flatten_append, List.flatten_cons, List.append_assoc us] at hall
  obtain ⟨-, hall⟩ := Nest.soundAll_append.1 hall
  obtain ⟨-, hall⟩ := Nest.soundAll_append.1 hall
  exact (Nest.soundAll_append.1 hall).1

theorem row_of_conditionalHeader {file lines : List Line} {line : Line} {ctx : Context}
    (hl : Line.Lexed file) (ho : (Task.conditional ctx line).On file lines) {a : Unit} {s : Cursor}
    (h : conditionalHeader ⟨line, [], []⟩ = .ok a s) :
    (∀ n ∈ line, Solid n) ∧ Nest.Single line ∧ s.unread = [] := by
  have hx := lexed_of_on hl ho
  obtain ⟨c, hk⟩ := ho.1
  obtain ⟨us, ts, hline, -, hsolid, hunread⟩ := consumes_conditionalHeader reads_solid (k := .root)
    hx.single (movable_of_keyword hk) _ _ _ _ h
  rw [hunread, List.append_nil] at hline
  subst hline
  exact ⟨hsolid hx.closed_head, hx.single, hunread⟩

theorem isTest_of_conditionalHeader {line : Line} (hsound : Nest.SoundAll line)
    (hsingle : Nest.Single line) (hsolid : ∀ n ∈ line, Solid n) {a : Unit} {s : Cursor}
    (h : conditionalHeader ⟨line, [], []⟩ = .ok a s) (hunread : s.unread = [])
    {k : ConditionalKind} (hk : k = .ifeq ∨ k = .ifneq)
    (hw : Token.keyword? (Nest.tokensOf line) = some (.keyword (.conditional k)))
    (hq : ∀ t ∈ (Token.test (Nest.tokensOf line)).head?, t.kind ≠ .stringLiteral) :
    ∃ s : Comparison, s.IsTest (Token.test (Nest.tokensOf line)) := by
  obtain ⟨ts, -, r, test, rfl, -, hcut⟩ := gives_conditionalHeader _ _ _ _ h
  rw [hunread] at hcut
  obtain ⟨hkeyword, htest⟩ := hcut.tokens hsound
  rw [hkeyword, Option.some.injEq] at hw
  rw [htest (by simp [hw])] at hq ⊢
  have hdefined (j : ConditionalKind) (hj : r.keyword.kind = .keyword (.conditional j)) :
      ¬ (j = .ifdef ∨ j = .ifndef) := by
    rw [hw] at hj
    cases hj
    rcases hk with rfl | rfl <;> decide
  have hquoted : ¬ test.head?.any (·.kind == .stringLiteral) = true := by
    intro hquote
    obtain ⟨m, hm, hkind⟩ := (Option.any_eq_true _ _).1 hquote
    refine hq m.token ?_ (beq_iff_eq.1 hkind)
    rw [Nest.head?_tokensOf, hm]
    rfl
  obtain ⟨row, rfl, -, hrow⟩ := hcut.comparison hdefined fun hquote => hquoted hquote.1
  rw [List.append_nil] at hsound hsolid hsingle ⊢
  obtain ⟨hrowsound, hending⟩ := Nest.soundAll_append.1 (Nest.soundAll_append.1 hsound).2
  have hrowsolid : ∀ n ∈ row.nests, Solid n := fun n hn => hsolid n (by simp [hn])
  refine ⟨row.comparison, hrow.divides hrowsound,
    hrow.not_lineBreak hrowsound hrowsolid hsingle.suffix, Nest.tokensOf r.ending, ?_,
    Nest.endsRow_tokensOf hending hcut.ending⟩
  rw [Nest.tokensOf_append, hrow.tokens_eq hrowsound]

/-- A line with a comparison that does not come apart is refused. -/
theorem refuses_comparison {ctx : Context} {line : Line} {lines : List Line}
    (h : (start text ch).Reaches (.conditional ctx line) lines) {k : ConditionalKind}
    (hk : k = .ifeq ∨ k = .ifneq)
    (hw : Token.keyword? (Nest.tokensOf line) = some (.keyword (.conditional k)))
    (hq : ∀ t ∈ (Token.test (Nest.tokensOf line)).head?, t.kind ≠ .stringLiteral)
    (hs : ∀ s : Comparison, ¬ s.IsTest (Token.test (Nest.tokensOf line))) :
    ∃ e, (start text ch).result strict = .error e := by
  cases hr : (start text ch).refusal strict with
  | some e => exact ⟨.lex e, by rw [result, hr]⟩
  | none =>
    cases hrun : conditionalHeader ⟨line, [], []⟩ with
    | error e s =>
      exact ⟨_, h.result hr (conditional_fails hrun lines)⟩
    | ok a s =>
      have hu := (refusal_eq_none.1 hr).2
      obtain ⟨hsolid, hsingle, hunread⟩ := row_of_conditionalHeader (lexed_lines hu) h.on hrun
      obtain ⟨s, htest⟩ := isTest_of_conditionalHeader (soundAll_of_reaches h hu) hsingle hsolid
        hrun hunread hk hw hq
      exact absurd htest (hs s)

end Lexer

/-- The test of an `ifeq` or `ifneq` that is not in quotes comes apart into two operands, with the
first comma outside of other parentheses between them and in parentheses that match. Where the parser
comes to a conditional whose test is not in quotes and is not two such operands on one row, with a
comment behind them at most, the text is refused. -/
theorem parse_comparisons (text : Text) (options : Options) :
    (∀ t, (parse text options).result = .ok t → ∀ p ∈ t.subtrees, ∀ k : NodeKind,
      k = .conditional ∨ k = .recipeConditional → ∀ n : Node k, p.tree = n.tree →
      n.conditionalKind? = some .ifeq ∨ n.conditionalKind? = some .ifneq → ∀ q ∈ p.parts,
      ∀ c : Condition, q.tree = c.tree → c.isQuoted = false → ∃ before s after,
        (Lexer.start text options.recipePrefix).HasComparison q c before s after ∧
        Token.CommaFree s.front ∧ Token.Balanced s.inside) ∧
    ∀ ctx line lines, (Lexer.start text options.recipePrefix).Reaches (.conditional ctx line) lines →
      ∀ k, k = .ifeq ∨ k = .ifneq →
      Token.keyword? (Nest.tokensOf line) = some (.keyword (.conditional k)) →
      (∀ t ∈ (Token.test (Nest.tokensOf line)).head?, t.kind ≠ .stringLiteral) →
      (∀ s : Comparison, ¬ s.IsTest (Token.test (Nest.tokensOf line))) →
      ∃ e, (parse text options).result = .error e := by
  rw [parse_result_start]
  constructor
  · intro t h p hp k hk n hn hc q hq c hqc hquoted
    obtain ⟨before, s, after, hs⟩ := Lexer.hasComparison h hp hk hn hc hq hqc hquoted
    exact ⟨before, s, after, hs, hs.divides.commaFree_front, hs.divides.balanced_inside⟩
  · intro ctx line lines h k hk hw hq hs
    exact Lexer.refuses_comparison h hk hw hq hs

/-- With parentheses and a comma in an operand, and without a comma. -/
theorem parse_comparisons_parens :
    (∃ (t : Tree) (p q : Placed) (n : Conditional) (c : Condition),
      (parse "ifeq (a(b,c),d)\nendif\n".toList {}).result = .ok t ∧ p ∈ t.subtrees ∧
        p.tree = n.tree ∧ n.conditionalKind? = some .ifeq ∧ q ∈ p.parts ∧ q.tree = c.tree ∧
        c.isQuoted = false ∧ ∃ before s after,
          (Lexer.start "ifeq (a(b,c),d)\nendif\n".toList '\t').HasComparison q c before s after ∧
          Token.CommaFree s.front ∧ Token.Balanced s.inside) ∧
    ∃ line lines,
      (Lexer.start "ifeq (a)\nendif\n".toList '\t').Reaches (.conditional .statements line) lines ∧
        ∃ e, (parse "ifeq (a)\nendif\n".toList {}).result = .error e := by
  constructor
  · let plain (s : Text) : Tree := .leaf (.token .plainText) s
    let comma : Tree := .leaf (.token .comma) [',']
    let c : Condition := ⟨[plain ['('], .node .expression [plain ['a'], plain ['('], plain ['b'],
      comma, plain ['c'], plain [')']], comma, .node .expression [plain ['d']], plain [')']]⟩
    let n : Conditional := ⟨[.leaf (.token (.keyword (.conditional .ifeq))) "ifeq".toList,
      .leaf (.token .whitespace) [' '], c.tree, .leaf (.token .lineBreak) ['\n'], .node .branch [],
      .leaf (.token (.keyword .endif)) "endif".toList, .leaf (.token .lineBreak) ['\n']]⟩
    have h : (parse "ifeq (a(b,c),d)\nendif\n".toList {}).result = .ok (.node .root [n.tree]) := by
      cbv
    have hp : (⟨1, 0, n.tree⟩ : Placed) ∈ (Tree.node .root [n.tree]).subtrees :=
      List.mem_cons_of_mem _ List.mem_cons_self
    have hq : (⟨2, 5, c.tree⟩ : Placed) ∈ (⟨1, 0, n.tree⟩ : Placed).parts :=
      Tree.mem_seats.2 ⟨n.children.take 2, n.children.drop 3, rfl, rfl⟩
    exact ⟨_, _, _, n, c, h, hp, rfl, rfl, hq, rfl, rfl,
      (parse_comparisons _ {}).1 _ h _ hp _ (.inl rfl) n rfl (.inl rfl) _ hq c rfl rfl⟩
  · -- the first line is that of a conditional, and there is no comma on it
    have hfirst : (Lexer.start "ifeq (a)\nendif\n".toList '\t').lines.head?.map (fun line =>
        ((Line.afterLeading line).head?.map Nest.kind, Token.keyword? (Nest.tokensOf line),
          (Token.test (Nest.tokensOf line)).map Token.kind)) =
        some (some (.keyword (.conditional .ifeq)), some (.keyword (.conditional .ifeq)),
          [.plainText, .plainText, .plainText, .lineBreak]) := by cbv
    obtain ⟨line, hline, hfirst⟩ := Option.map_eq_some_iff.1 hfirst
    obtain ⟨lines, hlines⟩ := List.head?_eq_some_iff.1 hline
    simp only [Prod.mk.injEq] at hfirst
    obtain ⟨hafter, hkeyword, htest⟩ := hfirst
    have hreach : (Lexer.start "ifeq (a)\nendif\n".toList '\t').Reaches
        (.conditional .statements line) lines := by
      rw [Lexer.Reaches, hlines]
      exact (Parser.Reaches.refl.tail .statement).tail (.conditional ⟨.ifeq, hafter⟩)
    refine ⟨line, lines, hreach, (parse_comparisons _ {}).2 _ line lines hreach .ifeq (.inl rfl)
      hkeyword (fun t ht => ?_) fun s hs => ?_⟩
    · have hk : (Token.test (Nest.tokensOf line)).head?.map Token.kind = some .plainText := by
        rw [← List.head?_map, htest]
        rfl
      rw [Option.mem_def.1 ht, Option.map_some, Option.some.injEq] at hk
      rw [hk]
      decide
    · have hcomma : s.comma ∈ Token.test (Nest.tokensOf line) := by
        obtain ⟨after, hafter, -⟩ := hs.ends
        rw [hafter]
        simp [Comparison.tokens, Comparison.inside]
      have hcomma := List.mem_map_of_mem (f := Token.kind) hcomma
      rw [htest, hs.divides.comma] at hcomma
      exact absurd hcomma (by decide)

end MakeTree
