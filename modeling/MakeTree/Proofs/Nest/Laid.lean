import MakeTree.Proofs.Grammar.Production
import MakeTree.Proofs.Nest.Comments
import MakeTree.Proofs.Nest.Trimmed
import MakeTree.Proofs.Tree.Places

/-!
How trees lay out nests. `Laid k ns ts` says that the trees `ts`, children of a node of kind `k`,
are built of the nests `ns` with each expansion in one piece, and that every node among them
conforms to the grammar of trees (`Laid.conforming`).
-/

namespace MakeTree

/-- A token that makes a leaf by itself wherever it stands. -/
def TokenKind.isBare : TokenKind → Bool
  | .expansionPrefix | .expansionSuffix | .stringLiteral | .varRef | .comment => false
  | _ => true

namespace NodeKind

/-- What a comment may stand in beside the parts: statements, conditionals of recipes, and the
`else` of a conditional. -/
def bearsComments (k : NodeKind) : Bool :=
  k == .recipeConditional || k == .elseBranch || statements.contains k

/-- Whether a token makes a leaf by itself among the children of a node. -/
def allows (k : NodeKind) (t : TokenKind) : Bool := t.isBare || t == .comment && k.bearsComments

/-- Whether nests may make a node of kind `j` among the children of one of kind `k`. An expression
has no blank at either end, and a comment only in commands and in the names of definitions. -/
def Admits (k j : NodeKind) (ns : List Nest) : Prop :=
  j = .expression → (Nest.Uncommented ns ∨ k = .recipe ∨ k = .definition) ∧ Nest.Trimmed ns

end NodeKind

inductive Laid : NodeKind → List Nest → List Tree → Prop
  | nil (k : NodeKind) : Laid k [] []
  | append {k : NodeKind} {ms ns : List Nest} {ts us : List Tree} (h : Laid k ms ts)
      (h' : Laid k ns us) : Laid k (ms ++ ns) (ts ++ us)
  | node {j k : NodeKind} {ns : List Nest} {ts : List Tree} (h : Laid j ns ts)
      (hc : Node.Conforms (k := j) ⟨ts⟩) (hk : k.Admits j ns) : Laid k ns [.node j ts]
  | leaf {k : NodeKind} (x : Lexeme) (hx : k.allows x.token.kind = true) :
      Laid k [.leaf x] x.leaves
  /-- the contents of an expression, all on one line -/
  | contents {ns : List Nest} (hs : Nest.SoundAll ns)
      (hl : ∀ n ∈ Nest.flattenAll ns, n.isLineBreak = false) :
      Laid .expression ns (Nest.treesOf ns)
  /-- a test of one name, to which a comment behind it belongs -/
  | lookup {k : NodeKind} {ns : List Nest} (hs : Nest.SoundAll ns)
      (hl : ∀ n ∈ Nest.flattenAll ns, n.isLineBreak = false) (ht : Nest.Trimmed ns) :
      Laid k ns [.node .condition [.node .expression (Nest.treesOf ns)]]
  /-- one side of a comparison in quotes -/
  | quoted {x : Lexeme} {inside : List Nest} (trailing : List Trivia)
      (hs : (Nest.quoted x inside trailing).Sound) : Laid .condition [.quoted x inside trailing]
        (x.openQuote ++ [.node .expression (Nest.treesOf inside)] ++
          trailing.map Trivia.tree ++ [x.closeQuote])
  | raw {x : Lexeme} (hs : (Nest.raw x).Sound) : Laid .condition [.raw x] (x.openQuote ++
      [.node .expression [.leaf (.token .plainText) x.token.inside.rest], x.closeQuote])
  /-- a definition, whose body may have any number of lines -/
  | definition {k : NodeKind} {us ns ms : List Nest} {hd te : List Tree} {name : List Tree}
      (h : Laid .definition us hd) (hn : Tree.nodesOf hd = [(.expression, name)])
      (hs : Nest.SoundAll ns) (h' : Laid .definition ms te)
      (hc : Node.Conforms (k := .definition)
        ⟨hd ++ (.node .expression (Nest.treesOf ns) :: te)⟩) :
      Laid k (us ++ (ns ++ ms))
        [.node .definition (hd ++ (.node .expression (Nest.treesOf ns) :: te))]

namespace Tree

/-- Every node in the trees conforms to the grammar. -/
def Conforming (ts : List Tree) : Prop :=
  ∀ k, Every k (fun us => Node.Conforms (k := k) ⟨us⟩) ts

namespace Conforming

variable {ts us : List Tree}

theorem nil : Conforming [] := fun _ => .nil

theorem append (h : Conforming ts) (h' : Conforming us) : Conforming (ts ++ us) :=
  fun k => (h k).append (h' k)

theorem node {k : NodeKind} (h : Conforming ts) (hc : Node.Conforms (k := k) ⟨ts⟩) :
    Conforming [.node k ts] := by
  intro j
  refine (h j).node ?_
  rintro rfl
  exact hc

theorem of_leaves (h : ∀ t ∈ ts, t.IsLeaf) : Conforming ts := fun _ => .of_leaves h

theorem leaves (x : Lexeme) : Conforming x.leaves :=
  of_leaves fun _ => Lexeme.isLeaf_of_mem_leaves

theorem openQuote (x : Lexeme) : Conforming x.openQuote :=
  of_leaves fun _ => Lexeme.isLeaf_of_mem_openQuote

theorem trivia (vs : List Trivia) : Conforming (vs.map Trivia.tree) :=
  of_leaves fun _ => Lexeme.isLeaf_of_mem_leading

theorem leaf (k : LeafKind) (s : Text) : Conforming [.leaf k s] :=
  of_leaves fun _ h => ⟨k, s, List.mem_singleton.1 h⟩

end Conforming

/-- Nodes of one kind among leaves, and all is as the grammar says. -/
structure Made (k : NodeKind) (ts : List Tree) : Prop where
  kinds : kinds ts ⊆ [k]
  conforming : Conforming ts

namespace Made

variable {k : NodeKind} {ts us : List Tree}

theorem nil : Made k [] := ⟨List.nil_subset _, .nil⟩

theorem append (h : Made k ts) (h' : Made k us) : Made k (ts ++ us) := by
  refine ⟨?_, h.conforming.append h'.conforming⟩
  rw [kinds_append]
  exact List.append_subset.2 ⟨h.kinds, h'.kinds⟩

theorem of_nodesOf (h : Conforming ts) (hi : nodesOf ts = []) : Made k ts :=
  ⟨by simp [kinds_of_nodesOf hi], h⟩

theorem expression (h : Made .expansion ts) : Made .expression [.node .expression ts] :=
  ⟨by simp, h.conforming.node h.kinds⟩

end Made

end Tree

namespace Part

open MakeTree.Tree

/-- A part of an expansion: what separates names and arguments is a leaf. -/
structure Sound (p : Part) : Prop where
  made : Made .expansion p.trees
  separator : p.mark = .blank ∨ p.mark = .comma → nodesOf p.trees = []

variable {ps : List Part}

theorem made_treesOf (h : ∀ p ∈ ps, p.Sound) : Made .expansion (treesOf ps) := by
  induction ps with
  | nil => exact .nil
  | cons p ps ih =>
    exact (h p List.mem_cons_self).made.append (ih fun q hq => h q (List.mem_cons_of_mem p hq))

theorem nodesOf_treesOf (h : ∀ p ∈ ps, p.Sound ∧ p.mark = .blank) : nodesOf (treesOf ps) = [] := by
  induction ps with
  | nil => rfl
  | cons p ps ih =>
    obtain ⟨hp, hb⟩ := h p List.mem_cons_self
    show nodesOf (p.trees ++ treesOf ps) = []
    rw [nodesOf_append, hp.separator (.inl hb), ih fun q hq => h q (List.mem_cons_of_mem p hq)]
    rfl

theorem made_arguments (h : ∀ p ∈ ps, p.Sound) (depth : Nat) {argument : List Tree}
    (ha : Made .expansion argument) : Made .expression (arguments depth argument ps) := by
  induction ps generalizing depth argument with
  | nil => exact ha.expression
  | cons p ps ih =>
    have hp := h p List.mem_cons_self
    have ih := fun d {a} => @ih (fun q hq => h q (List.mem_cons_of_mem p hq)) d a
    unfold arguments
    split
    · next hc =>
      have hsep : Made .expression p.trees :=
        .of_nodesOf hp.made.conforming (hp.separator (.inr hc.1))
      exact ha.expression.append (hsep.append (ih 0 .nil))
    · exact ih _ (ha.append hp.made)

theorem mem_of_mem_splitName {depth : Nat} {q : Part}
    (h : q ∈ (splitName depth ps).1 ∨ q ∈ (splitName depth ps).2) : q ∈ ps := by
  rw [← splitName_append depth ps]
  exact List.mem_append.2 h

theorem made_layout (h : ∀ p ∈ ps, p.Sound) : Made .expression (layout ps) := by
  unfold layout
  have hname : ∀ p ∈ (splitName 0 ps).1, p.Sound := fun p hp => h p (mem_of_mem_splitName (.inl hp))
  have hrest : ∀ p ∈ (splitName 0 ps).2, p.Sound := fun p hp => h p (mem_of_mem_splitName (.inr hp))
  refine (made_treesOf hname).expression.append (.append ?_ ?_)
  · have hb : ∀ p ∈ (splitName 0 ps).2.takeWhile (·.mark == .blank), p.Sound ∧ p.mark = .blank := by
      intro p hp
      refine ⟨hrest p ((List.takeWhile_prefix _).subset hp), ?_⟩
      simpa using List.mem_takeWhile_imp hp
    exact .of_nodesOf (made_treesOf fun p hp => (hb p hp).1).conforming (nodesOf_treesOf hb)
  · split
    · exact .nil
    · exact made_arguments (fun p hp => hrest p (List.mem_of_mem_drop hp)) 0 .nil

end Part

namespace Nest

open MakeTree.Tree

theorem nodesOf_trees_of_separator {n : Nest} (hn : n.Sound)
    (h : n.kind = .whitespace ∨ n.kind = .comma) : nodesOf n.trees = [] := by
  cases n with
  | leaf x =>
    have hr : x.isReference = false := by
      have hk : x.token.kind ≠ .varRef := by
        rintro hk
        rcases h with h | h <;> exact absurd (hk.symm.trans h) (by decide)
      simp [Lexeme.isReference, hk]
    simp [trees, Lexeme.trees, hr]
  | quoted x inside trailing =>
    rcases h with h | h <;> exact absurd (hn.2.1.symm.trans h) (by decide)
  | raw x => rcases h with h | h <;> exact absurd (hn.2.symm.trans h) (by decide)
  | expansion opener body closer =>
    rcases h with h | h <;> exact absurd (hn.2.1.symm.trans h) (by decide)

theorem mark_separator {t : Token} (h : Mark.ofToken t = .blank ∨ Mark.ofToken t = .comma) :
    t.kind = .whitespace ∨ t.kind = .comma := by
  unfold Mark.ofToken at h
  grind

mutual

theorem made_trees {n : Nest} (h : n.Sound) : Made .expansion n.trees := by
  match n with
  | leaf x =>
    show Made .expansion x.trees
    unfold Lexeme.trees
    split
    · next hr =>
      have hk : x.token.kind = .varRef := by
        simp only [Lexeme.isReference, Bool.and_eq_true, beq_iff_eq] at hr
        exact hr.1
      refine ⟨by simp, (Conforming.leaves x).node (.inl ⟨x.token.text, ?_, ?_⟩)⟩
      · simp [Node.nodeKinds]
      · simp [Node.tokens_eq, hk]
    · exact .of_nodesOf (.leaves x) (by simp)
  | quoted x inside trailing =>
    have hi := Part.made_treesOf (sound_parts h.2.2.1)
    refine .append (.append (.append ?_ hi) ?_) ?_
    · exact .of_nodesOf (.openQuote x) (by simp)
    · exact .of_nodesOf (.trivia trailing) (by simp)
    · exact .of_nodesOf (.leaf _ _) rfl
  | raw x => exact .of_nodesOf (.leaves x) (nodesOf_leaves x)
  | expansion opener body closer =>
    have hl := Part.made_layout (sound_parts h.2.2.1)
    refine ⟨by simp [trees], ?_⟩
    have hc := ((Conforming.leaves opener).append hl.conforming).append (.leaves closer)
    refine hc.node (.inr ?_)
    refine ⟨?_, ?_, ?_, ?_⟩
    · simp [Node.nodeKinds, Part.layout]
    · simpa [Node.nodeKinds] using hl.kinds
    · simp [Node.tokens_eq, h.2.1]
    · rw [Node.tokens_eq, marks_append, marks_leaves, List.getLast?_concat, h.2.2.2.2]
      rfl

theorem sound_parts {ns : List Nest} (h : SoundAll ns) : ∀ p ∈ parts ns, p.Sound := by
  match ns with
  | [] => nofun
  | n :: ns =>
    intro p hp
    rcases List.mem_cons.1 hp with rfl | hp
    · exact ⟨made_trees h.1, fun hm => nodesOf_trees_of_separator h.1 (mark_separator hm)⟩
    · exact sound_parts h.2 p hp

end

theorem made_treesOf {ns : List Nest} (h : SoundAll ns) : Made .expansion (treesOf ns) :=
  Part.made_treesOf (sound_parts h)

end Nest

namespace Laid

open MakeTree.Tree

variable {k : NodeKind} {ns : List Nest} {ts : List Tree}

theorem conforming (h : Laid k ns ts) : Conforming ts := by
  induction h with
  | nil => exact .nil
  | append _ _ ih ih' => exact ih.append ih'
  | node _ hc _ ih => exact ih.node hc
  | leaf x => exact .leaves x
  | contents hs => exact (Nest.made_treesOf hs).conforming
  | lookup hs => exact (Nest.made_treesOf hs).expression.conforming.node (.inl rfl)
  | @quoted x inside trailing hs =>
    have hi := (Nest.made_treesOf hs.2.2.1).expression.conforming
    exact (((Conforming.openQuote x).append hi).append (.trivia trailing)).append (.leaf _ _)
  | @raw x hs =>
    have hi : Made .expansion [.leaf (.token .plainText) x.token.inside.rest] :=
      .of_nodesOf (.leaf _ _) rfl
    exact (Conforming.openQuote x).append (hi.expression.conforming.append (.leaf _ _))
  | @definition k us ns ms hd te name _ _ hs _ hc ih ih' =>
    have hb := (Nest.made_treesOf hs).expression.conforming
    exact (ih.append (hb.append ih')).node hc

theorem reading (h : Laid k ns ts) : Reading (fun _ => True) k (Nest.flattenAll ns) ts := by
  induction h with
  | nil k => exact .nil k
  | append _ _ ih ih' =>
    rw [Nest.flattenAll_append]
    exact ih.append ih'
  | node _ _ _ ih => exact .node trivial ih
  | leaf x => exact .leaf _ x
  | @contents ns => exact Nest.reading_treesOf trivial trivial ns (by decide)
  | @lookup k ns =>
    exact .node trivial (.node trivial (Nest.reading_treesOf trivial trivial ns (by decide)))
  | @quoted x inside trailing =>
    have hi := Nest.reading_treesOf (P := fun _ => True) trivial trivial inside
      (k := .expression) (by decide)
    exact .quoted x trailing (.node trivial hi)
  | @raw x => exact .operand x trivial
  | @definition k us ns ms hd te name _ _ _ _ _ ih ih' =>
    have hb := Nest.reading_treesOf (P := fun _ => True) trivial trivial ns
      (k := .expression) (by decide)
    rw [Nest.flattenAll_append, Nest.flattenAll_append]
    exact .node trivial (ih.append (.append (.node trivial hb) ih'))

theorem text (h : Laid k ns ts) {xs : List Lexeme} {start : Nat}
    (hx : xs.map Nest.ofLexeme = Nest.flattenAll ns) (hs : Lexeme.Seated start xs) :
    textOf ts = Lexeme.textOf xs := h.reading.text hx.symm hs

theorem marks_allowed (h : Laid k ns ts) (hk : k ≠ .expression) :
    ∀ m ∈ marks ts, k.allows m.1 = true := by
  induction h with
  | nil k => exact fun _ hm => absurd hm List.not_mem_nil
  | append _ _ ih ih' =>
    intro m hm
    rw [marks_append] at hm
    exact (List.mem_append.1 hm).elim (ih hk m) (ih' hk m)
  | node => exact fun _ hm => absurd hm List.not_mem_nil
  | leaf x hx =>
    intro m hm
    rw [marks_leaves] at hm
    rw [List.mem_singleton.1 hm]
    exact hx
  | contents => exact absurd rfl hk
  | lookup => exact fun _ hm => absurd hm List.not_mem_nil
  | quoted => simp [Lexeme.closeQuote]
  | raw => simp [Lexeme.closeQuote]
  | definition => exact fun _ hm => absurd hm List.not_mem_nil

theorem ne_expansion (h : Laid k ns ts) (hc : Node.Conforms (k := k) ⟨ts⟩) : k ≠ .expansion := by
  rintro rfl
  have hb := h.marks_allowed (by decide)
  rcases hc with ⟨s, -, ht⟩ | ⟨-, -, ht, -⟩
  · have hm : marks ts = [(.varRef, s)] := ht
    cases hb (.varRef, s) (hm ▸ List.mem_cons_self)
  · obtain ⟨m, hm, hk⟩ := Option.map_eq_some_iff.1 ht
    have := hb m (List.mem_of_mem_head? hm)
    rw [hk] at this
    cases this

end Laid

end MakeTree
