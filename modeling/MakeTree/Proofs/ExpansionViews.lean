import Mathlib
import MakeTree.Proofs.TreeGrammar

/-!
The views of an expansion (`parse_expansion_shows`). They look at the first leaf, which is the token
that the expansion begins with only if nothing was passed over right in front of it: a reference of
one character behind a continuation is not known as short, and has no name.
-/

namespace MakeTree

namespace Tree

/-- The children of an expansion: a token that is one by itself, or an opening bracket and a name. -/
inductive Opened : List Tree → Prop
  | single (x : Lexeme) (h : x.isReference = true) : Opened x.leaves
  | bracket (x : Lexeme) (name rest : List Tree) (h : x.token.kind = .expansionPrefix) :
      Opened (x.leaves ++ .node .expression name :: rest)

end Tree

open MakeTree.Tree

theorem Regroups.every {ts us : List Tree} {Q : List Tree → Prop} (h : Regroups ts us)
    (hts : Every .expansion Q ts) : Every .expansion Q us := by
  induction h with
  | refl => exact hts
  | append _ _ ih ih' =>
    exact (ih fun t ht => hts t (List.mem_append_left _ ht)).append
      (ih' fun t ht => hts t (List.mem_append_right _ ht))
  | expression ts => exact hts.node nofun

namespace Nest

theorem opened_leaves (x : Lexeme) : Every .expansion Opened x.leaves :=
  .of_leaves fun _ => Lexeme.isLeaf_of_mem_leaves

theorem opened_quotes {ts : List Tree} (h : Every .expansion Opened ts) (x : Lexeme)
    (trailing : List Trivia) : Every .expansion Opened
      (x.openQuote ++ ts ++ trailing.map Trivia.tree ++ [x.closeQuote]) := by
  refine .append (.append (.append ?_ h) ?_) ?_
  · exact .of_leaves fun _ => Lexeme.isLeaf_of_mem_openQuote
  · exact .of_leaves fun _ => Lexeme.isLeaf_of_mem_leading
  · exact .of_leaves fun _ ht => ⟨_, _, List.mem_singleton.1 ht⟩

theorem opened_expression {ts : List Tree} (h : Every .expansion Opened ts) :
    Every .expansion Opened [.node .expression ts] := h.node nofun

mutual

theorem opened_trees {n : Nest} (h : n.Sound) : Every .expansion Opened n.trees := by
  match n with
  | leaf x =>
    rw [trees, Lexeme.trees]
    split
    · next hr => exact (opened_leaves x).node fun _ => .single x hr
    · exact opened_leaves x
  | quoted x inside trailing => exact opened_quotes (opened_treesOf h.2.2.1) x trailing
  | raw x => exact opened_leaves x
  | expansion opener body closer =>
    have hb := (Part.layout_regroups (parts body)).every (opened_treesOf h.2.2.1)
    refine (((opened_leaves opener).append hb).append (opened_leaves closer)).node fun _ => ?_
    rw [List.append_assoc]
    exact .bracket opener _ _ h.2.1

theorem opened_treesOf {ns : List Nest} (h : SoundAll ns) : Every .expansion Opened (treesOf ns) := by
  match ns with
  | [] => exact .nil
  | n :: ns => exact (opened_trees h.1).append (opened_treesOf h.2)

end

end Nest

/-- Every expansion among the trees begins with its token, behind what was passed over. -/
theorem Laid.opened {k : NodeKind} {ns : List Nest} {ts : List Tree} (h : Laid k ns ts) :
    Every .expansion Opened ts := by
  induction h with
  | nil => exact .nil
  | append _ _ ih ih' => exact ih.append ih'
  | node h hc _ ih => exact ih.node fun hk => absurd hk (h.ne_expansion hc)
  | leaf x => exact Nest.opened_leaves x
  | contents hs => exact Nest.opened_treesOf hs
  | lookup hs => exact (Nest.opened_expression (Nest.opened_treesOf hs)).node nofun
  | @quoted x inside trailing hs =>
    exact Nest.opened_quotes (Nest.opened_expression (Nest.opened_treesOf hs.2.2.1)) x trailing
  | @raw x =>
    have hi : Every .expansion Opened [.leaf (.token .plainText) x.token.inside.rest] :=
      .of_leaves fun _ ht => ⟨_, _, List.mem_singleton.1 ht⟩
    simpa using Nest.opened_quotes (Nest.opened_expression hi) x []
  | definition _ _ hs _ _ ih ih' =>
    exact (ih.append ((Nest.opened_expression (Nest.opened_treesOf hs)).append ih')).node nofun

theorem Lexer.result_opened {text : Text} {c : Char} {strict : Bool} {t : Tree}
    (h : (start text c).result strict = .ok t) : Every .expansion Opened [t] := by
  obtain ⟨ts, rfl, hl, -⟩ := result_laid h
  have ht : Every .expansion Opened ((start text c).nests.2.map Trivia.tree) :=
    .of_leaves fun _ => Lexeme.isLeaf_of_mem_leading
  exact (hl.opened.append ht).node nofun

namespace Node

variable {e : Expansion} {vs : List Trivia} {j : TokenKind} {s : Text} {ts : List Tree}

theorem opener?_behind (h : e.children = vs.map Trivia.tree ++ .leaf (.token j) s :: ts) :
    e.opener? = (vs.map Trivia.text ++ [s]).head? := by
  rw [opener?, tree, h, firstLeaf?_behind, ← List.head?_map, List.map_append, List.map_map]
  congr 2
  refine List.map_congr_left fun v _ => ?_
  cases v <;> rfl

theorem isShort_behind (h : e.children = vs.map Trivia.tree ++ .leaf (.token j) s :: ts) :
    e.isShort = true ↔ vs = [] ∧ j = .varRef := by
  rw [isShort, tree, h, firstLeaf?_behind]
  cases vs with
  | nil => simp
  | cons v vs => cases v <;> simp [Trivia.leaf]

/-- The expansion is the one token `$d`, behind what was passed over. Its views show this if there
is nothing in between. -/
structure ShowsReference (e : Expansion) (vs : List Trivia) (d : Char) : Prop where
  ne_dollar : d ≠ '$'
  children : e.children = vs.map Trivia.tree ++ [.leaf (.token .varRef) ['$', d]]
  isShort : e.isShort = true ↔ vs = []
  opener : e.opener? = (vs.map Trivia.text ++ [['$', d]]).head?
  opener_iff : e.opener? = some ['$', d] ↔ vs = []
  name : e.expansionName = if vs = [] then [d] else []
  arguments : e.arguments = []

/-- The expansion stands in brackets that `o` opens, behind what was passed over, and its views show
the name in any case. -/
structure ShowsBrackets (e : Expansion) (vs : List Trivia) (o : Text) (name : List Tree) : Prop where
  bracket : o = ['$', '('] ∨ o = ['$', '{']
  children : ∃ rest, e.children = vs.map Trivia.tree ++
    .leaf (.token .expansionPrefix) o :: .node .expression name :: rest
  isShort : e.isShort = false
  opener : e.opener? = (vs.map Trivia.text ++ [o]).head?
  opener_iff : e.opener? = some o ↔ vs = []
  nameExpression : e.nameExpression? = some ⟨name⟩
  name : e.expansionName = textOf name

theorem showsReference {d : Char} (hc : e.children = vs.map Trivia.tree ++
    [.leaf (.token .varRef) ['$', d]]) (hd : d ≠ '$') (hv : ∀ v ∈ vs, v.Valid) :
    e.ShowsReference vs d := by
  have hs : e.isShort = true ↔ vs = [] := by simp [isShort_behind hc]
  have ho := opener?_behind hc
  refine ⟨hd, hc, hs, ho, ?_, ?_, ?_⟩
  · rw [ho]
    exact Trivia.head?_eq_some fun v h => (hv v h).text_ne (by decide) (by decide) _
  · unfold expansionName
    by_cases hn : vs = []
    · rw [if_pos (hs.2 hn), if_pos hn, ho, hn]
      have hne : (d == '$') = false := beq_eq_false_iff_ne.2 hd
      simp [List.dropWhile, hne]
    · rw [if_neg (mt hs.1 hn), if_neg hn, nameExpression?, node?, nodes_eq, hc]
      simp [NodeKind.pick]
  · rw [arguments, nodes_eq, hc]
    simp [NodeKind.pick]

theorem showsBrackets {o : Text} {name rest : List Tree} (hc : e.children = vs.map Trivia.tree ++
    .leaf (.token .expansionPrefix) o :: .node .expression name :: rest)
    (ho : o = ['$', '('] ∨ o = ['$', '{']) (hv : ∀ v ∈ vs, v.Valid) : e.ShowsBrackets vs o name := by
  have hs : e.isShort = false := by
    rw [Bool.eq_false_iff]
    simp [isShort_behind hc]
  have hn : e.nameExpression? = some ⟨name⟩ := by
    rw [nameExpression?, node?, nodes_eq, hc]
    simp [NodeKind.pick]
  refine ⟨ho, ⟨rest, hc⟩, hs, opener?_behind hc, ?_, hn, ?_⟩
  · rw [opener?_behind hc]
    refine Trivia.head?_eq_some fun v h => ?_
    rcases ho with rfl | rfl
    · exact (hv v h).text_ne (by decide) (by decide) _
    · exact (hv v h).text_ne (by decide) (by decide) _
  · rw [expansionName, hs, hn]
    rfl

end Node

/-- Each expansion of a tree is a reference of one character or stands in brackets. With nothing
passed over right in front of its first token, its views show which of the two it is, how it opens
and its name; a reference shows no more than that it has no arguments otherwise, and brackets show
all but how they open. -/
theorem parse_expansion_shows {text : Text} {options : Options} {t : Tree}
    (h : (parse text options).result = .ok t) {p : Placed} (hp : p ∈ t.subtrees) {e : Expansion}
    (he : p.tree = e.tree) : ∃ vs : List Trivia, (∀ v ∈ vs, v.Valid) ∧
      ((∃ d, e.ShowsReference vs d) ∨ ∃ o name, e.ShowsBrackets vs o name) := by
  rw [parse_result_start] at h
  have hsub : Subtree e.tree t := he ▸ subtree_of_placed hp
  have hw := Lexer.result_written h hsub
  have ho : Opened e.children := Lexer.result_opened h _ List.mem_cons_self _ hsub
  obtain ⟨ts⟩ := e
  cases ho with
  | single x hx =>
    have hx' := Written.leaves_iff.1 hw
    simp only [Lexeme.isReference, Bool.and_eq_true, beq_iff_eq, bne_iff_ne] at hx
    obtain ⟨d, hd⟩ : ∃ d, x.token.text = ['$', d] := by
      have ht := hx'.token
      rwa [Token.Written, hx.1] at ht
    refine ⟨x.leading, hx'.leading, .inl ⟨d, Node.showsReference ?_ ?_ hx'.leading⟩⟩
    · show x.leaves = _
      rw [Lexeme.leaves, hx.1, hd]
    · rintro rfl
      exact hx.2 hd
  | bracket x name rest hx =>
    have hx' := Written.leaves_iff.1 (Written.append_iff.1 hw).1
    have hc : x.leaves ++ .node .expression name :: rest = x.leading.map Trivia.tree ++
        .leaf (.token .expansionPrefix) x.token.text :: .node .expression name :: rest := by
      rw [Lexeme.leaves, hx, List.append_assoc]
      rfl
    have ho : x.token.text = ['$', '('] ∨ x.token.text = ['$', '{'] := by
      have ht := hx'.token
      rwa [Token.Written, hx] at ht
    exact ⟨x.leading, hx'.leading, .inr ⟨_, name, Node.showsBrackets hc ho hx'.leading⟩⟩

/-- The value of an assignment, a reference behind a continuation. -/
theorem parse_continuedReference : ∃ t, (parse "a=\\\n$@\n".toList {}).result = .ok t ∧
    (⟨3, 2, .node .expansion [.leaf .continuation ['\\', '\n'], .leaf (.token .varRef) ['$', '@']]⟩ :
      Placed) ∈ t.subtrees := by
  have h : (parse "a=\\\n$@\n".toList {}).result = .ok (.node .root [.node .assignment
      [.node .expression [.leaf (.token .plainText) ['a']], .leaf (.token .assignOp) ['='],
        .node .expression [.node .expansion
          [.leaf .continuation ['\\', '\n'], .leaf (.token .varRef) ['$', '@']]],
        .leaf (.token .lineBreak) ['\n']]]) := by cbv
  exact ⟨_, h, List.mem_of_getElem? (i := 6) rfl⟩

/-- With a continuation in front of a reference. -/
theorem parse_expansion_shows_continued : ∃ (t : Tree) (p : Placed) (e : Expansion),
    (parse "a=\\\n$@\n".toList {}).result = .ok t ∧ p ∈ t.subtrees ∧ p.tree = e.tree ∧
      ∃ vs : List Trivia, (∀ v ∈ vs, v.Valid) ∧
        ((∃ d, e.ShowsReference vs d) ∨ ∃ o name, e.ShowsBrackets vs o name) := by
  obtain ⟨t, h, hp⟩ := parse_continuedReference
  exact ⟨t, _, ⟨_⟩, h, hp, rfl, parse_expansion_shows h hp rfl⟩

/-- Not every reference of one character is known as such: the one behind a continuation is not, and
it has the continuation for its opener and no name. -/
theorem parse_reference_unknown : ¬ ∀ (text : Text) (options : Options) (t : Tree) (p : Placed)
    (e : Expansion) (d : Char), (parse text options).result = .ok t → p ∈ t.subtrees →
      p.tree = e.tree → .leaf (.token .varRef) ['$', d] ∈ e.children →
        e.isShort = true ∧ e.opener? = some ['$', d] ∧ e.expansionName = [d] ∧ e.arguments = [] := by
  intro h
  obtain ⟨t, ht, hp⟩ := parse_continuedReference
  obtain ⟨hs, -⟩ := h _ _ t _ ⟨_⟩ '@' ht hp rfl (List.mem_cons_of_mem _ List.mem_cons_self)
  cases hs

end MakeTree
