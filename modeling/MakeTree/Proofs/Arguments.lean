import Mathlib
import MakeTree.Proofs.Comments
import MakeTree.Proofs.Expansions
import MakeTree.Proofs.Nest.Layout

/-!
Arguments (`parse_arguments`). The lexer and the tree agree on what an expansion in brackets is
called with: the name ends at the first blank, and commas separate arguments, where the frame of the
expansion is innermost.
-/

namespace MakeTree

open MakeTree.Tree

/-- Whether the tree is the leaf of a comma. -/
def Placed.isComma (p : Placed) : Bool := p.tree.kind == .leaf (.token .comma)

section Separators

variable {start : Nat} {ts : List Tree} {tokens ws : List Token}

theorem filter_isComma_eq_nil (h : ∀ t ∈ ts, t.kind ≠ .leaf (.token .comma)) (depth start : Nat) :
    (seats depth start ts).filter Placed.isComma = [] := by
  refine List.filter_eq_nil_iff.2 fun p hp => ?_
  have hm := List.mem_map_of_mem (f := Placed.tree) hp
  rw [map_tree_seats] at hm
  simpa [Placed.isComma] using h p.tree hm

theorem kind_trivia_ne {t : Tree} {vs : List Trivia} (h : t ∈ vs.map Trivia.tree) (k : TokenKind) :
    t.kind ≠ .leaf (.token k) := by
  obtain ⟨v, -, rfl⟩ := List.mem_map.1 h
  cases v with
  | continuation s => simp [Trivia.tree, Tree.kind]
  | skipped c => simp [Trivia.tree, Tree.kind]

theorem Tree.Bears.commas (h : Bears start ts tokens) (depth : Nat) :
    List.Forall₂ Placed.IsLeafOf ((seats depth start ts).filter Placed.isComma)
      (tokens.filter (·.kind == .comma)) := by
  obtain ⟨xs, rfl, rfl, hs⟩ := h
  induction xs generalizing start with
  | nil => exact .nil
  | cons x xs ih =>
    have htrivia : (seats depth start (x.leading.map Trivia.tree)).filter Placed.isComma = [] :=
      filter_isComma_eq_nil (fun t ht => kind_trivia_ne ht _) depth start
    have ih := ih hs.2
    rw [List.flatMap_cons, seats_append, Lexeme.textOf_leaves, Lexeme.leaves, seats_append,
      List.filter_append, List.filter_append, htrivia, List.nil_append, Lexeme.textOf_trivia,
      ← hs.1.offset, seats, seats, List.map_cons]
    by_cases hk : x.token.kind = .comma
    · rw [List.filter_cons_of_pos (by simp [Placed.isComma, Tree.kind, hk]),
        List.filter_cons_of_pos (by simp [hk])]
      exact .cons ⟨rfl, rfl⟩ ih
    · rw [List.filter_cons_of_neg (by simp [Placed.isComma, Tree.kind, hk]),
        List.filter_cons_of_neg (by simp [hk])]
      exact ih

theorem Tree.Bears.no_commas (h : Bears start ts tokens) (hk : ∀ t ∈ tokens, t.kind ≠ .comma)
    (depth start' : Nat) : (seats depth start' ts).filter Placed.isComma = [] := by
  obtain ⟨xs, rfl, rfl, -⟩ := h
  refine filter_isComma_eq_nil (fun t ht hc => ?_) depth start'
  obtain ⟨x, hx, ht⟩ := List.mem_flatMap.1 ht
  rcases List.mem_append.1 ht with ht | ht
  · exact kind_trivia_ne ht _ hc
  · obtain rfl := List.mem_singleton.1 ht
    simp only [Tree.kind, Kind.leaf.injEq, LeafKind.token.injEq] at hc
    exact hk x.token (List.mem_map_of_mem hx) hc

theorem commas_node (depth start : Nat) (k : NodeKind) (us ts : List Tree) :
    (seats depth start (.node k us :: ts)).filter Placed.isComma =
      (seats depth (start + (textOf us).byteSize) ts).filter Placed.isComma := by
  rw [seats, List.filter_cons_of_neg (by simp [Placed.isComma, Tree.kind])]
  rfl

theorem Separated.commas (h : Separated start ts tokens ws) (depth : Nat) :
    List.Forall₂ Placed.IsLeafOf ((seats depth start ts).filter Placed.isComma) ws := by
  induction h with
  | single h =>
    rw [commas_node]
    exact .nil
  | comma h hu hw hv ih =>
    have hc := hu.commas depth
    rw [List.filter_cons_of_pos (by simp [hw]), List.filter_nil] at hc
    rw [commas_node, seats_append, List.filter_append]
    exact List.rel_append hc ih

theorem Separated.length (h : Separated start ts tokens ws) :
    (NodeKind.expression.pick (nodesOf ts)).length = ws.length + 1 := by
  induction h with
  | single h => rfl
  | comma h hu hw hv ih =>
    rw [nodesOf_node, nodesOf_append, hu.nodesOf, List.nil_append, List.length_cons, ← ih]
    rfl

end Separators

namespace Call

variable {c : Call} {e : Placed} {x y : Token} {own : Token → Prop} {after : List Token}

/-- The children of the expansion are the leaves of its opener, what the parts make, and the leaves
of its closer. -/
def Fills (c : Call) (e : Placed) (x y : Token) : Prop :=
  ∃ os us bs as cs, e.tree = .node .expansion (os ++ .node .expression us :: (bs ++ (as ++ cs))) ∧
    Bears e.start os [x] ∧ c.Makes (e.start + (textOf os).byteSize) us bs as ∧
    Bears (e.start + (textOf (os ++ .node .expression us :: (bs ++ as))).byteSize) cs [y]

theorem Fills.separators (h : c.Fills e x y) (hd : c.Divides own y after) (hx : x.kind ≠ .comma)
    (hy : y.kind ≠ .comma) :
    List.Forall₂ Placed.IsLeafOf (e.parts.filter Placed.isComma) c.commas := by
  obtain ⟨os, us, bs, as, cs, he, hos, hm, hcs⟩ := h
  have hb : ∀ t ∈ c.blanks, t.kind ≠ .comma := by
    intro t ht
    rw [hd.blanks t ht]
    decide
  rw [Placed.parts, he, children, seats_append, List.filter_append,
    hos.no_commas (by simpa using hx), List.nil_append, commas_node, seats_append,
    List.filter_append, hm.blanks.no_commas hb, List.nil_append, seats_append, List.filter_append,
    hcs.no_commas (by simpa using hy), List.append_nil]
  rcases hm.arguments with ⟨-, hnil, has⟩ | ⟨-, hsep⟩
  · rw [hnil, has]
    exact .nil
  · exact hsep.commas _

theorem Fills.length (h : c.Fills e x y) (hd : c.Divides own y after) {n : Expansion}
    (hn : e.tree = n.tree) : n.arguments.length =
      if ∀ t ∈ c.blanks ++ c.arguments, t.kind = .whitespace then 0 else c.commas.length + 1 := by
  obtain ⟨os, us, bs, as, cs, he, hos, hm, hcs⟩ := h
  have hchildren : n.children = os ++ .node .expression us :: (bs ++ (as ++ cs)) :=
    congrArg Tree.children (hn.symm.trans he)
  have hl : n.arguments.length = (NodeKind.expression.pick (nodesOf as)).length := by
    rw [Node.arguments, Node.nodes_eq, hchildren, nodesOf_append, hos.nodesOf, nodesOf_node,
      nodesOf_append, hm.blanks.nodesOf, nodesOf_append, hcs.nodesOf, List.nil_append,
      List.nil_append, List.append_nil]
    rfl
  rw [hl]
  rcases hm.arguments with ⟨hnil, -, has⟩ | ⟨hne, hsep⟩
  · rw [has, hnil, List.append_nil, if_pos hd.blanks]
    rfl
  · rw [hsep.length, if_neg]
    intro hall
    obtain ⟨t, ts, ht⟩ := List.exists_cons_of_ne_nil hne
    refine hd.arguments t (by rw [ht]; rfl) (hall t ?_)
    rw [ht]
    exact List.mem_append_right _ List.mem_cons_self

end Call

/-- The expansion is what `x` opens and `y` closes, and shows the call that stands in between, cut
where its frame is innermost. The tokens `after` follow. -/
structure Call.In (c : Call) (lx : Lexer) (e : Placed) (x y : Token) (after : List Token) :
    Prop where
  kind : y.kind = .expansionSuffix
  pops : lx.Pops x y
  divides : c.Divides (lx.Inmost x) y after
  fills : c.Fills e x y
  separators : List.Forall₂ Placed.IsLeafOf (e.parts.filter Placed.isComma) c.commas
  length : ∀ n : Expansion, e.tree = n.tree → n.arguments.length =
    if ∀ t ∈ c.blanks ++ c.arguments, t.kind = .whitespace then 0 else c.commas.length + 1

theorem Bracketed.fills {b : Bracketed} {c : Call} {us bs as : List Tree} {inside : List Lexeme}
    {e : Placed} (he : e.tree = .node .expansion b.children)
    (hs : Lexeme.Seated e.start (b.opener :: (inside ++ [b.closer])))
    (hx : inside.map Nest.ofLexeme = Nest.flattenAll b.body)
    (hl : Part.layout (Nest.parts b.body) = .node .expression us :: (bs ++ as))
    (hm : c.Makes (e.start + b.opener.text.byteSize) us bs as) :
    c.Fills e b.opener.token b.closer.token := by
  obtain ⟨ho, hs⟩ := hs
  obtain ⟨hin, hclose, -⟩ := Lexeme.seated_append.1 hs
  have hto : Tree.textOf b.opener.leaves = b.opener.text := Lexeme.textOf_leaves b.opener
  have hti : Tree.textOf (.node .expression us :: (bs ++ as)) = Lexeme.textOf inside := by
    rw [← hl, (Part.layout_regroups _).textOf]
    exact Nest.textOf_treesOf hx hin
  refine ⟨b.opener.leaves, us, bs, as, b.closer.leaves, ?_, .lexeme ho, ?_, ?_⟩
  · rw [he, Bracketed.children, hl]
    simp
  · rwa [hto]
  · rw [Tree.textOf_append, hto, hti, Text.byteSize_append, ← Nat.add_assoc]
    exact .lexeme hclose

theorem Tree.Located.subtree_eq {t : Tree} {o : Lexeme} {y : Token} {start : Nat} {us : List Tree}
    (h : Located 0 [t] o.token y) (hm : (start, o.leaves ++ us) ∈ expansionsOf 0 [t])
    (ho : o.Stands start) : ∃ e, t.subtrees.filter (Placed.opensWith o.token) = [e] ∧
      e.start = start ∧ e.tree = .node .expansion (o.leaves ++ us) := by
  obtain ⟨e, he, -⟩ := h.subtree
  rw [expansionsOf, expansionsOf, List.append_nil, ← filterMap_placed 0] at hm
  obtain ⟨p, hp, hpe⟩ := List.mem_filterMap.1 hm
  have hopens : p.opensWith o.token = true := by
    rw [Placed.opensWith, hpe]
    simp [opening?_leaves ho]
  have hmem : p ∈ t.subtrees.filter (Placed.opensWith o.token) := List.mem_filter.2 ⟨hp, hopens⟩
  rw [he] at hmem
  obtain rfl := List.mem_singleton.1 hmem
  exact ⟨p, he, Placed.expansion?_eq_some hpe⟩

namespace Lexer

variable {text : Text} {c : Char} {strict : Bool} {t : Tree}

theorem inmost_start {opener closer : Lexeme} {body : List Nest}
    (hc : (Nest.expansion opener body closer).Closed) {before xs after : List Lexeme}
    (hlex : (start text c).lexemes.1 = before ++ xs ++ after)
    (hx : xs.map Nest.ofLexeme = (Nest.expansion opener body closer).flatten) :
    Nest.Counted ((start text c).Inmost opener.token) 0 body ∧
      (start text c).Inmost opener.token closer.token ∧
      ∀ t ∈ after.map Lexeme.token, ¬ (start text c).Inmost opener.token t := by
  have hall : (start text c).Covers (before ++ xs ++ after) (start text c).lexemes.2
      (start text c).run.2 := ⟨_, (start text c).steps_run, Prod.ext hlex rfl⟩
  obtain ⟨mid, hcov, hrest⟩ := hall.split
  obtain ⟨first, ⟨ps, hps, -⟩, hcov⟩ := hcov.split
  exact Covers.inmost (ordered_start text c) hc hps hx hcov hrest

/-- Every token that opens an expansion does so for one that stands among the lexemes, and in the
tree behind those before it. -/
theorem result_bracketed (h : (start text c).result strict = .ok t) {x : Token}
    (hx : x ∈ (start text c).tokens) (hk : x.kind = .expansionPrefix) :
    ∃ (b : Bracketed) (e : Placed) (before inside after : List Lexeme), b.opener.token = x ∧
      (Nest.expansion b.opener b.body b.closer).Closed ∧
      (start text c).Pops x b.closer.token ∧
      (start text c).lexemes.1 = before ++ (b.opener :: (inside ++ [b.closer])) ++ after ∧
      inside.map Nest.ofLexeme = Nest.flattenAll b.body ∧
      t.subtrees.filter (Placed.opensWith x) = [e] ∧ e.tree = .node .expansion b.children ∧
      Lexeme.Seated e.start (b.opener :: (inside ++ [b.closer])) := by
  rw [tokens, ← Piece.lexemes_token []] at hx
  obtain ⟨o, ho, rfl⟩ := List.mem_map.1 hx
  have hu := (refusal_eq_none.1 (result_ok h).1).2
  obtain ⟨y, hb, -, hp⟩ := pops_start hu ho hk
  obtain ⟨ts, rfl, hl, -⟩ := result_laid h
  have hn : (start text c).nests = ((start text c).nests.1, (start text c).nests.2) := rfl
  obtain ⟨hf, -⟩ := lexemes_of_nests hn
  have hseat : Lexeme.Seated 0 (start text c).lexemes.1 := (start text c).seated_lexemes.1
  have hroot : Tree.expansionsOf 0 [.node .root (ts ++ (start text c).nests.2.map Trivia.tree)] =
      Tree.expansionsOf 0 (ts ++ (start text c).nests.2.map Trivia.tree) :=
    Tree.expansionsOf_node (by decide)
  have hloc := (hl.located hf.symm hseat _ hb).left.of_eq hroot
  -- the same brackets, with what stands between them
  obtain ⟨body, hbody⟩ := Nest.mem_bracketedOf hb
  obtain ⟨-, -, -, -, -, hc⟩ := yields_nests hu rfl
  obtain ⟨before, inside, after, hlex, hinside, hnode⟩ := hl.bracketed hf.symm hseat _ hbody
  have hmid := hseat
  rw [hlex, List.append_assoc] at hmid
  obtain ⟨-, hmid⟩ := Lexeme.seated_append.1 hmid
  obtain ⟨hmid, -⟩ := Lexeme.seated_append.1 hmid
  rw [Bracketed.children, List.append_assoc] at hnode
  obtain ⟨e, he, hstart, htree⟩ :=
    hloc.subtree_eq (hroot ▸ expansionsOf_append 0 _ _ ▸ List.mem_append_left _ hnode) hmid.1
  refine ⟨⟨o, body, y⟩, e, before, inside, after, rfl, Nest.closed_bracketedOf hc hbody,
    (hp _).2 rfl, hlex, hinside, he, ?_, hstart ▸ hmid⟩
  rw [htree, Bracketed.children, List.append_assoc]

/-- Every token that opens an expansion has its call in the tree. -/
theorem result_call (h : (start text c).result strict = .ok t) {x : Token}
    (hx : x ∈ (start text c).tokens) (hk : x.kind = .expansionPrefix) :
    ∃ (e : Placed) (call : Call) (y : Token) (before after : List Token),
      t.subtrees.filter (Placed.opensWith x) = [e] ∧
      (start text c).tokens = before ++ x :: (call.tokens ++ y :: after) ∧
      call.In (start text c) e x y after := by
  obtain ⟨b, e, before, inside, after, rfl, hc, hp, hlex, hinside, he, htree, hseat⟩ :=
    result_bracketed h hx hk
  have hy : b.closer.token.kind = .expansionSuffix := hc.2.2
  obtain ⟨hcounted, hclose, hafter⟩ := inmost_start hc hlex (Nest.map_ofLexeme_expansion hc hinside)
  obtain ⟨call, us, bs, as, hcall, hlayout, hmakes, hdivides⟩ := Nest.layout_call hc.2.1 hcounted
    hinside (Lexeme.seated_append.1 hseat.2).1 hy hclose hafter
  have hfills := Bracketed.fills htree hseat hinside hlayout hmakes
  refine ⟨e, call, b.closer.token, before.map Lexeme.token, after.map Lexeme.token, he, ?_, ?_⟩
  · rw [tokens, ← Piece.lexemes_token [], hcall]
    show (start text c).lexemes.1.map _ = _
    rw [hlex]
    simp
  · exact ⟨hy, hp, hdivides, hfills,
      hfills.separators hdivides (by rw [hk]; decide) (by rw [hy]; decide),
      fun n hn => hfills.length hdivides hn⟩

end Lexer

/-- What an expansion in brackets is called with. Behind the token that opens it there are its name,
which ends at the closer or at the first blank at which the frame of the expansion is innermost,
then blanks, then arguments, if there are any, with one comma between two of them, then the closer.
The commas that separate arguments, and are children of the expansion, are those behind the name at
which its frame is innermost. -/
theorem parse_arguments {text : Text} {options : Options} {t : Tree}
    (h : (parse text options).result = .ok t) : ∃ tokens,
      (tokenize text options.recipePrefix).2 = .ok tokens ∧
      ∀ x ∈ tokens, x.kind = .expansionPrefix →
        ∃ (e : Placed) (c : Call) (y : Token) (before after : List Token),
          t.subtrees.filter (Placed.opensWith x) = [e] ∧
          tokens = before ++ x :: (c.tokens ++ y :: after) ∧
          c.In (Lexer.start text options.recipePrefix) e x y after := by
  rw [parse_result_start] at h
  have hu := (Lexer.refusal_eq_none.1 (Lexer.result_ok h).1).2
  exact ⟨_, tokenize_tokens hu, fun x hx hk => Lexer.result_call h hx hk⟩

/-- With a comma in an argument, within parentheses. -/
theorem parse_arguments_parens : ∃ t tokens, (parse "$(a (b,c),d)\n".toList {}).result = .ok t ∧
    (tokenize "$(a (b,c),d)\n".toList '\t').2 = .ok tokens ∧
    ∀ x ∈ tokens, x.kind = .expansionPrefix →
      ∃ (e : Placed) (c : Call) (y : Token) (before after : List Token),
        t.subtrees.filter (Placed.opensWith x) = [e] ∧
        tokens = before ++ x :: (c.tokens ++ y :: after) ∧
        c.In (Lexer.start "$(a (b,c),d)\n".toList '\t') e x y after := by
  obtain ⟨t, hr⟩ : ∃ t, (parse "$(a (b,c),d)\n".toList {}).result = .ok t :=
    exists_result (by cbv)
  obtain ⟨tokens, ht, hx⟩ := parse_arguments hr
  exact ⟨t, tokens, hr, ht, hx⟩

end MakeTree
