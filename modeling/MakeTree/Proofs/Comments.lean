import Mathlib
import MakeTree.Proofs.Bodies
import MakeTree.Proofs.Refusals
import MakeTree.Proofs.TokenFidelity
import MakeTree.Proofs.TreeGrammar

/-!
Where comments stand (`parse_comments`). A comment ends a line, and but for commands and the bodies
of definitions it is no part of an expression: it stands in a statement or in an `else` beside the
parts. Two names do not end where a comment begins, though, the one of a definition and the one that
a conditional looks up.
-/

namespace MakeTree

namespace Placed

/-- The leaf of a token. -/
def IsLeafOf (q : Placed) (x : Token) : Prop :=
  q.start = x.position.offset ∧ q.tree = .leaf (.token x.kind) x.text

/-- `e` is the name in `d`, the first expression of a definition or all there is of a condition. -/
def IsNameOf (e d : Placed) : Prop := ∃ k vs us ws,
  (k = .definition ∨ k = .condition ∧ vs = [] ∧ ws = []) ∧
    d.tree = .node k (vs ++ .node .expression us :: ws) ∧ Tree.kinds vs = [] ∧
    e = ⟨d.depth + 1, d.start + (Tree.textOf vs).byteSize, .node .expression us⟩

/-- Where a comment stands. -/
inductive Commented (ps : List Placed) (q : Placed) : Prop
  | command {r : Placed} (hr : r ∈ ps) (hk : r.tree.kind = .node .recipe) (hq : q ∈ r.subtrees)
  | body {b d : Placed} (hd : d ∈ ps) (hb : b.IsBodyOf d) (hq : q ∈ b.subtrees)
  | beside {p : Placed} {k : NodeKind} (hp : p ∈ ps) (hk : p.tree.kind = .node k)
      (hc : k.bearsComments = true) (hq : q ∈ p.parts)
  | name {e d : Placed} (hd : d ∈ ps) (he : e.IsNameOf d) (hq : q ∈ e.parts)

theorem Commented.mono {ps ps' : List Placed} {q : Placed} (h : Commented ps q) (hs : ps ⊆ ps') :
    Commented ps' q := by
  cases h with
  | command hr hk hq => exact .command (hs hr) hk hq
  | body hd hb hq => exact .body (hs hd) hb hq
  | beside hp hk hc hq => exact .beside (hs hp) hk hc hq
  | name hd he hq => exact .name (hs hd) he hq

end Placed

namespace Tree

variable {j k : NodeKind} {depth start : Nat} {ts us : List Tree} {q : Placed}

theorem isNameOf_or_isBodyOf (hc : Node.Conforms (k := .definition) ⟨ts⟩) {e : Placed}
    (he : e ∈ seats (depth + 1) start ts) (hx : e.tree.kind = .node .expression) :
    e.IsNameOf ⟨depth, start, .node .definition ts⟩ ∨
      e.IsBodyOf ⟨depth, start, .node .definition ts⟩ := by
  obtain ⟨vs, ws, hts, he⟩ := mem_seats.1 he
  generalize e.tree = t at hx hts he
  cases t with
  | leaf => cases hx
  | node j us =>
    obtain rfl := Kind.node.inj hx
    have hk : kinds ts = [.expression, .expression] := hc.2.2.1
    rw [hts, kinds_append, kinds_node] at hk
    cases hv : kinds vs with
    | nil => exact .inl ⟨_, vs, us, ws, .inl rfl, by rw [hts], hv, he⟩
    | cons i is =>
      rw [hv, List.cons_append] at hk
      obtain ⟨rfl, hk⟩ := List.cons.inj hk
      have his : is = [] := by
        cases is with
        | nil => rfl
        | cons => simp at hk
      exact .inr ⟨vs, us, ws, by rw [hts], by rw [hv, his], he⟩

/-- Where a comment stands among the children of a node of the kind. If it is a child, or one of an
expression, it takes the node, or the one around it, to say what place that is. -/
inductive Sited (k : NodeKind) (depth start : Nat) (ts : List Tree) (q : Placed) : Prop
  | settled (h : Placed.Commented (placedOf depth start ts) q)
  | child (hk : k = .expression ∨ k.bearsComments = true) (hq : q ∈ seats depth start ts)
  | inner (hk : k = .recipe ∨ k = .definition) {e : Placed} (he : e ∈ seats depth start ts)
      (hx : e.tree.kind = .node .expression) (hq : q ∈ e.parts)

namespace Sited

theorem mono {depth' start' : Nat} (h : Sited k depth start ts q)
    (hp : placedOf depth start ts ⊆ placedOf depth' start' us)
    (hs : seats depth start ts ⊆ seats depth' start' us) : Sited k depth' start' us q := by
  cases h with
  | settled h => exact .settled (h.mono hp)
  | child hk hq => exact .child hk (hs hq)
  | inner hk he hx hq => exact .inner hk (hs he) hx hq

theorem left (h : Sited k depth start ts q) (us : List Tree) :
    Sited k depth start (ts ++ us) q := by
  refine h.mono ?_ ?_
  · rw [placedOf_append]
    exact List.subset_append_left _ _
  · rw [seats_append]
    exact List.subset_append_left _ _

theorem right {start' : Nat} (h : Sited k depth start' us q)
    (hs : start' = start + (textOf ts).byteSize) : Sited k depth start (ts ++ us) q := by
  subst hs
  refine h.mono ?_ ?_
  · rw [placedOf_append]
    exact List.subset_append_right _ _
  · rw [seats_append]
    exact List.subset_append_right _ _

theorem node (h : Sited j (depth + 1) start ts q) (hc : Node.Conforms (k := j) ⟨ts⟩)
    (hx : j = .expression → k = .recipe ∨ k = .definition) :
    Sited k depth start [.node j ts] q := by
  have hd : (⟨depth, start, .node j ts⟩ : Placed) ∈ placedOf depth start [.node j ts] :=
    seats_subset _ _ _ List.mem_cons_self
  have hsub : placedOf (depth + 1) start ts ⊆ placedOf depth start [.node j ts] := by
    rw [placedOf_node]
    exact List.subset_cons_self _ _
  cases h with
  | settled h => exact .settled (h.mono hsub)
  | child hj hq =>
    rcases hj with rfl | hj
    · exact .inner (hx rfl) List.mem_cons_self rfl hq
    · exact .settled (.beside hd rfl hj hq)
  | @inner hj e he hek hq =>
    rcases hj with rfl | rfl
    · have hq : q ∈ placedOf (depth + 1) start ts :=
        placedOf_trans (seats_subset _ _ _ he) (parts_subset e hq)
      exact .settled (.command hd rfl (List.mem_cons_of_mem _ hq))
    · rcases isNameOf_or_isBodyOf hc he hek with he | he
      · exact .settled (.name hd he hq)
      · exact .settled (.body hd he (parts_subset e hq))

theorem asked {us : List Tree} (hq : q ∈ seats (depth + 2) start us) :
    Sited k depth start [.node .condition [.node .expression us]] q := by
  have he : (⟨depth + 1, start, .node .expression us⟩ : Placed).IsNameOf
      ⟨depth, start, .node .condition [.node .expression us]⟩ :=
    ⟨_, [], us, [], .inr ⟨rfl, rfl, rfl⟩, rfl, rfl, rfl⟩
  exact .settled (.name (seats_subset _ _ _ List.mem_cons_self) he hq)

/-- A body has several lines, so that a comment may stand anywhere in it. -/
theorem body {hd us te : List Tree} (hname : kinds hd = [.expression])
    (hq : q ∈ placedOf (depth + 2) (start + (textOf hd).byteSize) us) :
    Sited k depth start [.node .definition (hd ++ .node .expression us :: te)] q := by
  let b : Placed := ⟨depth + 1, start + (textOf hd).byteSize, .node .expression us⟩
  have hb : b.IsBodyOf ⟨depth, start, .node .definition (hd ++ .node .expression us :: te)⟩ :=
    ⟨hd, us, te, rfl, hname, rfl⟩
  have hq : q ∈ b.subtrees := List.mem_cons_of_mem _ hq
  exact .settled (.body (seats_subset _ _ _ List.mem_cons_self) hb hq)

end Sited

end Tree

open MakeTree.Tree

theorem Lexeme.exists_isLeafOf {x : Lexeme} {start : Nat} (hx : x.Stands start) (depth : Nat) :
    ∃ q : Placed, q.IsLeafOf x.token ∧ q ∈ seats depth start x.leaves := by
  refine ⟨⟨depth, x.token.position.offset, _⟩, ⟨rfl, rfl⟩, mem_seats.2 ⟨_, [], rfl, ?_⟩⟩
  rw [textOf_trivia, hx.offset]

namespace Nest

variable {ns : List Nest} {xs : List Lexeme} {start : Nat} {x : Lexeme}

theorem comment_treesOf (hs : SoundAll ns) (hl : ∀ n ∈ flattenAll ns, n.isLineBreak = false)
    (hc : CommentsEnd ns) (hx : xs.map ofLexeme = flattenAll ns) (hseat : Lexeme.Seated start xs)
    (hm : x ∈ xs) (hk : x.token.kind = .comment) (depth : Nat) :
    ∃ q : Placed, q.IsLeafOf x.token ∧ q ∈ seats depth start (treesOf ns) := by
  have hf : (ofLexeme x).first = x := first_ofLexeme x
  have hn : ofLexeme x ∈ flattenAll ns := hx ▸ List.mem_map_of_mem hm
  obtain ⟨hleaf, ms, rfl⟩ := hc.eq_concat hs hl hn (by simp [isComment, kind, token, hf, hk])
  rw [hf] at hleaf
  rw [hleaf, flattenAll_append] at hx
  obtain ⟨ys, zs, rfl, ⟨hy, h₁⟩, hz, h₂⟩ := Lexeme.seated_split hx hseat
  obtain ⟨z, rfl, hz'⟩ := map_ofLexeme_eq_singleton hz.symm
  obtain ⟨rfl, -⟩ := ofLexeme_eq_leaf hz'
  have hr : Reading (fun _ => True) .expression (flattenAll ms) (treesOf ms) :=
    reading_treesOf trivial trivial ms (by decide)
  have ht : treesOf [leaf z] = z.leaves := by
    have hr : z.isReference = false := by simp [Lexeme.isReference, hk]
    show z.trees ++ [] = z.leaves
    rw [List.append_nil, Lexeme.trees, hr]
    rfl
  obtain ⟨q, hq, hmem⟩ := Lexeme.exists_isLeafOf h₂.1 depth
  refine ⟨q, hq, ?_⟩
  rw [hleaf, treesOf_append, seats_append, ht, hr.text hy.symm h₁]
  exact List.mem_append_right _ hmem

end Nest

theorem Reading.exists_isLeafOf {P : NodeKind → Prop} {k : NodeKind} {ns : List Nest}
    {ts : List Tree} (h : Reading P k ns ts) {xs : List Lexeme} {start : Nat}
    (hn : ns = xs.map Nest.ofLexeme) (hs : Lexeme.Seated start xs) {x : Lexeme} (hm : x ∈ xs)
    (hk : x.token.kind ≠ .stringLiteral) (depth : Nat) :
    ∃ q : Placed, q.IsLeafOf x.token ∧ q ∈ placedOf depth start ts := by
  obtain ⟨parent, hspot⟩ := (h.accounts hn hs).spells.mem (List.mem_map_of_mem hm) hk
  obtain ⟨q, hq, hleaf⟩ := placedOf_of_spotsOf (List.mem_of_mem_filter hspot) depth
  exact ⟨q, hleaf, hq⟩

theorem Laid.sited {k : NodeKind} {ns : List Nest} {ts : List Tree} (h : Laid k ns ts)
    {xs : List Lexeme} {start : Nat} (hx : xs.map Nest.ofLexeme = Nest.flattenAll ns)
    (hs : Lexeme.Seated start xs) (hc : Nest.CommentsEnd ns) {x : Lexeme} (hm : x ∈ xs)
    (hk : x.token.kind = .comment) (depth : Nat) :
    ∃ q : Placed, q.IsLeafOf x.token ∧ Sited k depth start ts q := by
  have hn : x.token.kind ≠ .stringLiteral := by simp [hk]
  induction h generalizing xs start depth with
  | nil =>
    obtain rfl := List.map_eq_nil_iff.1 hx
    cases hm
  | @append k ms ns ts us h _ ih ih' =>
    rw [Nest.flattenAll_append] at hx
    obtain ⟨ys, zs, rfl, ⟨hy, h₁⟩, hz, h₂⟩ := Lexeme.seated_split hx hs
    rcases List.mem_append.1 hm with hm | hm
    · obtain ⟨q, hq, hsite⟩ := ih hy h₁ hc.left hm depth
      exact ⟨q, hq, hsite.left us⟩
    · obtain ⟨q, hq, hsite⟩ := ih' hz h₂ hc.right hm depth
      exact ⟨q, hq, hsite.right (by rw [h.text hy h₁])⟩
  | @node j k ns ts _ hcf hadmits ih =>
    obtain ⟨q, hq, hsite⟩ := ih hx hs hc hm (depth + 1)
    refine ⟨q, hq, hsite.node hcf fun hj => (hadmits hj).1.resolve_left fun hu => ?_⟩
    have hf := hu (Nest.ofLexeme x) (hx ▸ List.mem_map_of_mem hm)
    simp [Nest.isComment, Nest.kind, Nest.token, Nest.first_ofLexeme, hk] at hf
  | @leaf k y hy =>
    obtain ⟨z, rfl, hz⟩ := Nest.map_ofLexeme_eq_singleton hx.symm
    obtain ⟨rfl, -⟩ := Nest.ofLexeme_eq_leaf hz
    obtain rfl := List.mem_singleton.1 hm
    obtain ⟨q, hq, hmem⟩ := Lexeme.exists_isLeafOf hs.1 depth
    refine ⟨q, hq, .child (.inr ?_) hmem⟩
    rw [hk] at hy
    exact hy
  | contents hsound hl =>
    obtain ⟨q, hq, hmem⟩ := Nest.comment_treesOf hsound hl hc hx hs hm hk depth
    exact ⟨q, hq, .child (.inl rfl) hmem⟩
  | @lookup k ns hsound hl =>
    obtain ⟨q, hq, hmem⟩ := Nest.comment_treesOf hsound hl hc hx hs hm hk (depth + 2)
    exact ⟨q, hq, .asked hmem⟩
  | quoted trailing hsound =>
    obtain ⟨y, rfl, hy⟩ := Nest.map_ofLexeme_eq_singleton hx.symm
    obtain rfl := List.mem_singleton.1 hm
    exact absurd (Nest.ofLexeme_eq_quoted hy).2.1 (by rwa [← (Nest.ofLexeme_eq_quoted hy).1])
  | raw hsound =>
    obtain ⟨y, rfl, hy⟩ := Nest.map_ofLexeme_eq_singleton hx.symm
    obtain rfl := List.mem_singleton.1 hm
    exact absurd (Nest.ofLexeme_eq_raw hy).2.1 (by rwa [← (Nest.ofLexeme_eq_raw hy).1])
  | @definition k us ns ms hd te name h hname hsound _ hcf ih ih' =>
    rw [Nest.flattenAll_append, Nest.flattenAll_append] at hx
    obtain ⟨ys, xs, rfl, ⟨hy, h₁⟩, hx, h₂⟩ := Lexeme.seated_split hx hs
    obtain ⟨zs, ws, rfl, ⟨hz, h₃⟩, hw, h₄⟩ := Lexeme.seated_split hx h₂
    have hbody : Reading (fun _ => True) .expression (Nest.flattenAll ns) (Nest.treesOf ns) :=
      Nest.reading_treesOf trivial trivial ns (by decide)
    rcases List.mem_append.1 hm with hm | hm
    · obtain ⟨q, hq, hsite⟩ := ih hy h₁ hc.left hm (depth + 1)
      exact ⟨q, hq, (hsite.left _).node hcf fun hj => absurd hj (by decide)⟩
    rcases List.mem_append.1 hm with hm | hm
    · obtain ⟨q, hq, hmem⟩ := hbody.exists_isLeafOf hz.symm h₃ hm hn (depth + 2)
      rw [← h.text hy h₁] at hmem
      exact ⟨q, hq, .body (kinds_of_one hname) hmem⟩
    · obtain ⟨q, hq, hsite⟩ := ih' hw h₄ hc.right.right hm (depth + 1)
      rw [← hbody.text hz.symm h₃, ← h.text hy h₁] at hsite
      have hnode : textOf [.node .expression (Nest.treesOf ns)] = textOf (Nest.treesOf ns) :=
        List.append_nil _
      rw [← hnode] at hsite
      exact ⟨q, hq, ((hsite.right rfl).right rfl).node hcf fun hj => absurd hj (by decide)⟩

namespace Lexer

variable {text : Text} {c : Char} {strict : Bool} {t : Tree} {x : Token}

theorem text_ne_nil_of_mem_tokens (h : x ∈ (start text c).tokens) : x.text ≠ [] := by
  have hr : (x.position.offset, x.text) ∈ (start text c).yielded.filterMap Item.stretch? :=
    List.mem_filterMap.2 ⟨_, mem_yielded h, rfl⟩
  exact ((tiles_start text c).stretches _ hr).1

/-- Where the comments of a text stand in its tree. -/
theorem result_commented (h : (start text c).result strict = .ok t)
    (hx : x ∈ (start text c).tokens) (hk : x.kind = .comment) :
    ∃ q : Placed, q.IsLeafOf x ∧ Placed.Commented t.subtrees q := by
  obtain ⟨ts, rfl, hl, -⟩ := result_laid h
  have hn : (start text c).nests = ((start text c).nests.1, (start text c).nests.2) := rfl
  have hm : x ∈ (start text c).lexemes.1.map Lexeme.token := by
    rwa [lexemes, Piece.lexemes_token]
  obtain ⟨y, hy, rfl⟩ := List.mem_map.1 hm
  obtain ⟨q, hq, hsite⟩ := hl.sited (lexemes_of_nests hn).1.symm (start text c).seated_lexemes.1
    (Nest.commentsEnd_nests _) hy hk 1
  refine ⟨q, hq, ?_⟩
  cases hsite with
  | settled h =>
    refine h.mono ?_
    rw [Tree.subtrees, placed, placedOf_append]
    exact List.subset_cons_of_subset _ (List.subset_append_left _ _)
  | child hk => exact absurd hk (by decide)
  | inner hk => exact absurd hk (by decide)

end Lexer

namespace Placed

variable {t : Tree} {e d q : Placed}

theorem IsNameOf.mem_parts (h : e.IsNameOf d) : e ∈ d.parts := by
  obtain ⟨k, vs, us, ws, -, hd, -, rfl⟩ := h
  rw [parts, hd]
  exact mem_seats.2 ⟨vs, ws, rfl, rfl⟩

theorem IsBodyOf.mem_parts (h : e.IsBodyOf d) : e ∈ d.parts := by
  obtain ⟨vs, us, ws, hd, -, rfl⟩ := h
  rw [parts, hd]
  exact mem_seats.2 ⟨vs, ws, rfl, rfl⟩

theorem mem_of_mem_parts (hd : d ∈ t.subtrees) (hq : q ∈ d.parts) : q ∈ t.subtrees :=
  placed_trans hd (parts_subset d hq)

theorem Commented.mem (h : Commented t.subtrees q) : q ∈ t.subtrees := by
  cases h with
  | command hr _ hq => exact placed_trans hr hq
  | body hd hb hq => exact placed_trans (mem_of_mem_parts hd hb.mem_parts) hq
  | beside hp _ _ hq => exact mem_of_mem_parts hp hq
  | name hd he hq => exact mem_of_mem_parts (mem_of_mem_parts hd he.mem_parts) hq

theorem not_mem_expression (hc : Conforming [t]) {p : Placed} (hp : p ∈ t.subtrees)
    {k : NodeKind} (hk : p.tree.kind = .node k) (hb : k.bearsComments = true) (hq : q ∈ p.parts)
    (hleaf : q.tree.IsLeaf) (hlt : q.start < q.stop) (he : e ∈ t.subtrees)
    (hx : e.tree.kind = .node .expression) : q ∉ e.subtrees := by
  intro hmem
  obtain ⟨j, s, hj⟩ := hleaf
  obtain rfl | ⟨p', hp', hq'⟩ := placed_parent hmem
  · rw [show e.tree = .leaf j s from hj] at hx
    cases hx
  -- the statement would have to be an expression or an expansion itself
  obtain rfl := parent_unique hp (placed_trans he hp') hq hq' hlt
  have hin : k ∈ [NodeKind.expression, .expansion] := by
    have hpe := subtree_of_placed hp'
    have het := subtree_of_placed he
    generalize e.tree = s at hpe het hx
    cases hpe with
    | refl =>
      obtain rfl := Kind.node.inj (hk.symm.trans hx)
      decide
    | child hu hpu =>
      obtain rfl := Kind.node.inj hx
      exact hc.inner ⟨t, List.mem_cons_self, het⟩ (by decide) hpu hu hk
  revert hin hb
  cases k <;> decide

end Placed

namespace Tree

/-- `q` is part of a command. -/
def InCommand (t : Tree) (q : Placed) : Prop :=
  ∃ r ∈ t.subtrees, r.tree.kind = .node .recipe ∧ q ∈ r.subtrees

def InBody (t : Tree) (q : Placed) : Prop :=
  ∃ d ∈ t.subtrees, ∃ b : Placed, b.IsBodyOf d ∧ q ∈ b.subtrees

/-- `q` stands in a statement or in an `else` beside the parts, and no expression has it. -/
def Beside (t : Tree) (q : Placed) : Prop :=
  (∃ p ∈ t.subtrees, ∃ k : NodeKind, p.tree.kind = .node k ∧ k.bearsComments = true ∧
      q ∈ p.parts) ∧
    ∀ e ∈ t.subtrees, e.tree.kind = .node .expression → q ∉ e.subtrees

/-- `q` stands in the name of a definition or in the one that a conditional looks up. -/
def InName (t : Tree) (q : Placed) : Prop :=
  ∃ d ∈ t.subtrees, ∃ e : Placed, e.IsNameOf d ∧ q ∈ e.parts

end Tree

/-- Every comment of a text has its leaf in the tree, which stands beside the parts of a statement
or of an `else` and in no expression, unless it is part of a command, of the body of a definition or
of a name that does not end where a comment begins. -/
theorem parse_comments {text : Text} {options : Options} {t : Tree}
    (h : (parse text options).result = .ok t) : ∃ tokens,
      (tokenize text options.recipePrefix).2 = .ok tokens ∧
      ∀ x ∈ tokens, x.kind = .comment → ∃ q ∈ t.subtrees, q.IsLeafOf x ∧
        (t.InCommand q ∨ t.InBody q ∨ t.Beside q ∨ t.InName q) := by
  rw [parse_result_start] at h
  have hu := (Lexer.refusal_eq_none.1 (Lexer.result_ok h).1).2
  refine ⟨_, tokenize_tokens hu, fun x hx hk => ?_⟩
  obtain ⟨q, hq, hc⟩ := Lexer.result_commented h hx hk
  refine ⟨q, hc.mem, hq, ?_⟩
  cases hc with
  | command hr hk hq => exact .inl ⟨_, hr, hk, hq⟩
  | body hd hb hq => exact .inr (.inl ⟨_, hd, _, hb, hq⟩)
  | name hd he hq => exact .inr (.inr (.inr ⟨_, hd, _, he, hq⟩))
  | beside hp hpk hb hmem =>
    have hlt : q.start < q.stop := by
      have := Text.byteSize_pos (Lexer.text_ne_nil_of_mem_tokens hx)
      rw [Placed.stop, hq.2, Tree.text]
      omega
    have hc := Lexer.result_conforming h
    refine .inr (.inr (.inl ⟨⟨_, hp, _, hpk, hb, hmem⟩, fun e he hek => ?_⟩))
    exact Placed.not_mem_expression hc hp hpk hb hmem ⟨_, _, hq.2⟩ hlt he hek

/-- A conditional on a name with a comment right behind it, all of which is looked up. -/
theorem parse_commentedName : ∃ (t : Tree) (x : Token) (e : Placed),
    (parse "ifdef A#c\nendif\n".toList {}).result = .ok t ∧
      (∃ tokens, (tokenize "ifdef A#c\nendif\n".toList '\t').2 = .ok tokens ∧ x ∈ tokens) ∧
      x.kind = .comment ∧ (∀ p ∈ t.subtrees, p.tree.kind ≠ .node .recipe) ∧
      (∀ p ∈ t.subtrees, p.tree.kind ≠ .node .definition) ∧ e ∈ t.subtrees ∧
      e.tree.kind = .node .expression ∧ ∀ q ∈ t.subtrees, q.IsLeafOf x → q ∈ e.subtrees := by
  let name : Tree := .node .expression
    [.leaf (.token .plainText) ['A'], .leaf (.token .comment) ['#', 'c']]
  let t : Tree := .node .root [.node .conditional
    [.leaf (.token (.keyword (.conditional .ifdef))) "ifdef".toList,
      .leaf (.token .whitespace) [' '], .node .condition [name],
      .leaf (.token .lineBreak) ['\n'], .node .branch [],
      .leaf (.token (.keyword .endif)) "endif".toList, .leaf (.token .lineBreak) ['\n']]]
  let x : Token := ⟨.comment, ['#', 'c'], ⟨1, 8, 7⟩⟩
  have h : (parse "ifdef A#c\nendif\n".toList {}).result = .ok t := by cbv
  have hx : (tokenize "ifdef A#c\nendif\n".toList '\t').2.toOption.any (·.contains x) = true := by
    cbv
  refine ⟨t, x, ⟨3, 6, name⟩, h, ?_, rfl, ?_, ?_, ?_, rfl, ?_⟩
  · cases hr : (tokenize "ifdef A#c\nendif\n".toList '\t').2 with
    | ok tokens =>
      rw [hr] at hx
      exact ⟨tokens, rfl, List.contains_iff_mem.1 hx⟩
    | error e =>
      rw [hr] at hx
      cases hx
  · simp [t, name, Tree.subtrees, placed, placedOf, Tree.kind]
  · simp [t, name, Tree.subtrees, placed, placedOf, Tree.kind]
  · exact List.mem_of_getElem? (i := 5) rfl
  · rintro q hq ⟨-, hleaf⟩
    have hq : q ∈ t.subtrees.filter (·.tree.kind == .leaf (.token .comment)) :=
      List.mem_filter.2 ⟨hq, by rw [hleaf]; rfl⟩
    obtain rfl := List.mem_singleton.1 hq
    exact List.mem_of_getElem? (i := 2) rfl

/-- With a comment right behind the name of a conditional. -/
theorem parse_comments_commentedName : ∃ t, (parse "ifdef A#c\nendif\n".toList {}).result = .ok t ∧
    ∃ tokens, (tokenize "ifdef A#c\nendif\n".toList '\t').2 = .ok tokens ∧
      ∀ x ∈ tokens, x.kind = .comment → ∃ q ∈ t.subtrees, q.IsLeafOf x ∧
        (t.InCommand q ∨ t.InBody q ∨ t.Beside q ∨ t.InName q) := by
  obtain ⟨t, x, e, h, -⟩ := parse_commentedName
  exact ⟨t, h, parse_comments h⟩

/-- Not every comment that is no part of a command or of the body of a definition stands beside the
parts: the one behind the name of a conditional does not. -/
theorem parse_comment_inName : ¬ ∀ (text : Text) (options : Options) (t : Tree)
    (tokens : List Token) (x : Token), (parse text options).result = .ok t →
      (tokenize text options.recipePrefix).2 = .ok tokens → x ∈ tokens → x.kind = .comment →
        ∃ q ∈ t.subtrees, q.IsLeafOf x ∧ (t.InCommand q ∨ t.InBody q ∨ t.Beside q) := by
  intro hall
  obtain ⟨t, x, e, h, ⟨tokens, ht, hx⟩, hk, hr, hd, he, hek, hin⟩ := parse_commentedName
  obtain ⟨q, hq, hleaf, ⟨r, hr', hrk, -⟩ | ⟨d, hd', b, ⟨vs, us, ws, hdt, -⟩, -⟩ | ⟨-, hnone⟩⟩ :=
    hall _ {} t tokens x h ht hx hk
  · exact hr r hr' hrk
  · exact hd d hd' (by rw [hdt]; rfl)
  · exact hnone e he hek (hin q hq hleaf)

end MakeTree
