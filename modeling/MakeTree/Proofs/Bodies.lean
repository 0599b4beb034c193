import MakeTree.Proofs.Nest.Laid
import MakeTree.Proofs.Nest.Regroup

/-!
Line breaks within expansions. Only the body of a definition runs over several lines, so an
expansion with a line break in it stands in such a body (`Laid.bodied`).
-/

namespace MakeTree

namespace Placed

/-- An expansion with a line break in it. -/
def IsBroken (e : Placed) : Prop :=
  e.tree.kind = .node .expansion ∧ ∃ l ∈ e.tree.leaves, l.1 = .token .lineBreak

/-- `b` is the body of the definition `d`, the second expression in it. -/
def IsBodyOf (b d : Placed) : Prop := ∃ vs us ws,
  d.tree = .node .definition (vs ++ .node .expression us :: ws) ∧ Tree.kinds vs = [.expression] ∧
    b = ⟨d.depth + 1, d.start + (Tree.textOf vs).byteSize, .node .expression us⟩

/-- Every expansion with a line break in it stands in the body of a definition. -/
def Bodied (ps : List Placed) : Prop := ∀ e ∈ ps, e.IsBroken →
  ∃ d ∈ ps, ∃ b : Placed, b.IsBodyOf d ∧ e ∈ b.tree.placed b.depth b.start

namespace Bodied

variable {ps qs : List Placed}

theorem nil : Bodied [] := fun _ he => absurd he List.not_mem_nil

theorem append (h : Bodied ps) (h' : Bodied qs) : Bodied (ps ++ qs) := by
  intro e he hb
  rcases List.mem_append.1 he with he | he
  · obtain ⟨d, hd, h⟩ := h e he hb
    exact ⟨d, List.mem_append_left qs hd, h⟩
  · obtain ⟨d, hd, h⟩ := h' e he hb
    exact ⟨d, List.mem_append_right ps hd, h⟩

theorem cons {p : Placed} (h : Bodied ps) (hp : p.tree.kind ≠ .node .expansion) :
    Bodied (p :: ps) := by
  intro e he hb
  rcases List.mem_cons.1 he with rfl | he
  · exact absurd hb.1 hp
  · obtain ⟨d, hd, h⟩ := h e he hb
    exact ⟨d, List.mem_cons_of_mem p hd, h⟩

end Bodied

end Placed

namespace Tree

theorem bodied_of_leaves {ts : List Tree} (h : ∀ t ∈ ts, t.IsLeaf) (depth start : Nat) :
    Placed.Bodied (placedOf depth start ts) := by
  rintro e he ⟨hk, -⟩
  obtain ⟨t, ht, hs⟩ := subtree_of_placedOf he
  obtain ⟨j, s, rfl⟩ := h t ht
  generalize e.tree = u at hk hs
  cases hs
  cases hk

/-- No leaf of the trees ends a line. -/
def Unbroken (ts : List Tree) : Prop := ∀ l ∈ leavesOf ts, l.1 ≠ .token .lineBreak

namespace Unbroken

variable {ts us : List Tree}

theorem append (h : Unbroken ts) (h' : Unbroken us) : Unbroken (ts ++ us) := by
  intro l hl
  rw [leavesOf_append] at hl
  exact (List.mem_append.1 hl).elim (h l) (h' l)

theorem node {k : NodeKind} (h : Unbroken ts) : Unbroken [.node k ts] := by
  intro l hl
  rw [leavesOf, leavesOf, List.append_nil] at hl
  exact h l hl

theorem leaf {k : LeafKind} (s : Text) (h : k ≠ .token .lineBreak) : Unbroken [.leaf k s] := by
  intro l hl
  obtain rfl := List.mem_singleton.1 hl
  exact h

theorem trivia (vs : List Trivia) : Unbroken (vs.map Trivia.tree) := by
  induction vs with
  | nil => exact fun _ hl => absurd hl List.not_mem_nil
  | cons v vs ih =>
    cases v with
    | continuation s => exact (leaf s (k := .continuation) nofun).append ih
    | skipped c => exact (leaf [c] (k := .skipped) nofun).append ih

theorem leaves {x : Lexeme} (h : x.token.kind ≠ .lineBreak) : Unbroken x.leaves :=
  (trivia x.leading).append (leaf _ fun hk => h (LeafKind.token.inj hk))

theorem openQuote (x : Lexeme) : Unbroken x.openQuote :=
  (trivia x.leading).append (leaf (k := .quote) _ nofun)

theorem closeQuote (x : Lexeme) : Unbroken [x.closeQuote] := leaf (k := .quote) _ nofun

theorem quotes (h : Unbroken ts) (x : Lexeme) (trailing : List Trivia) :
    Unbroken (x.openQuote ++ ts ++ trailing.map Trivia.tree ++ [x.closeQuote]) :=
  (((openQuote x).append h).append (trivia trailing)).append (closeQuote x)

theorem bodied (h : Unbroken ts) (depth start : Nat) : Placed.Bodied (placedOf depth start ts) := by
  rintro e he ⟨-, l, hl, hk⟩
  obtain ⟨t, ht, hs⟩ := subtree_of_placedOf he
  obtain ⟨vs, ws, rfl⟩ := List.append_of_mem ht
  refine absurd hk (h l ?_)
  rw [leavesOf_append, leavesOf]
  exact List.mem_append_right _ (List.mem_append_left _ (hs.leaves_subset hl))

end Unbroken

end Tree

namespace Nest

open MakeTree.Tree

mutual

theorem unbroken_trees {n : Nest} (hn : n.Sound) (hl : n.Unbroken) : Tree.Unbroken n.trees := by
  match n with
  | leaf x =>
    rw [trees, Lexeme.trees]
    split
    · exact (Unbroken.leaves hl).node
    · exact .leaves hl
  | quoted x inside trailing => exact (unbroken_treesOf hn.2.2.1 hl).quotes x trailing
  | raw x => exact .leaves (by rw [hn.2]; decide)
  | expansion opener body closer =>
    have hr := (Part.layout_regroups (parts body)).leavesOf
    have hb : Tree.Unbroken (Part.layout (parts body)) := by
      rw [Tree.Unbroken, hr]
      exact unbroken_treesOf hn.2.2.1 hl
    refine (((Unbroken.leaves ?_).append hb).append (.leaves ?_)).node
    · rw [hn.2.1]
      decide
    · rw [hn.2.2.2.2]
      decide

theorem unbroken_treesOf {ns : List Nest} (hn : SoundAll ns) (hl : UnbrokenAll ns) :
    Tree.Unbroken (treesOf ns) := by
  match ns with
  | [] => exact fun _ hl => absurd hl List.not_mem_nil
  | n :: ns => exact (unbroken_trees hn.1 hl.1).append (unbroken_treesOf hn.2 hl.2)

end

end Nest

namespace Laid

open MakeTree.Tree

variable {k : NodeKind} {ns : List Nest} {ts : List Tree}

theorem bodied (h : Laid k ns ts) (depth start : Nat) :
    Placed.Bodied (placedOf depth start ts) := by
  induction h generalizing depth start with
  | nil => exact .nil
  | append _ _ ih ih' =>
    rw [placedOf_append]
    exact (ih _ _).append (ih' _ _)
  | node h hc _ ih =>
    rw [placedOf_node]
    exact (ih _ _).cons fun hk => h.ne_expansion hc (Kind.node.inj hk)
  | leaf x => exact bodied_of_leaves (fun _ => Lexeme.isLeaf_of_mem_leaves) _ _
  | contents hs hl =>
    exact (Nest.unbroken_treesOf hs (Nest.unbrokenAll_of_soundAll hs hl)).bodied _ _
  | lookup hs hl =>
    exact (Nest.unbroken_treesOf hs (Nest.unbrokenAll_of_soundAll hs hl)).node.node.bodied _ _
  | @quoted x inside trailing hs =>
    exact (((Nest.unbroken_treesOf hs.2.2.1 hs.2.2.2).node).quotes x trailing).bodied _ _
  | @raw x hs =>
    have hi : Tree.Unbroken [.leaf (.token .plainText) x.token.inside.rest] := .leaf _ nofun
    exact ((Unbroken.openQuote x).append (hi.node.append (.closeQuote x))).bodied _ _
  | @definition k us ns ms hd te name _ hn _ _ _ ih ih' =>
    rw [placedOf_node, placedOf_append]
    intro e he hb
    rcases List.mem_cons.1 he with rfl | he
    · cases hb.1
    rcases List.mem_append.1 he with he | he
    · obtain ⟨d, hd, h⟩ := ih _ _ e he hb
      exact ⟨d, List.mem_cons_of_mem _ (List.mem_append_left _ hd), h⟩
    rcases List.mem_append.1 he with he | he
    · exact ⟨_, List.mem_cons_self, _, ⟨hd, Nest.treesOf ns, te, rfl, kinds_of_one hn, rfl⟩, he⟩
    · obtain ⟨d, hd, h⟩ := ih' _ _ e he hb
      refine ⟨d, List.mem_cons_of_mem _ (List.mem_append_right _ ?_), h⟩
      exact List.mem_append_right _ hd

end Laid

end MakeTree
