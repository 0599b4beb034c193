import Mathlib
import MakeTree.Proofs.TreeGrammar

/-!
Expressions in fragments (`parse_fragments`). The fragments of an expression are its text without
what was passed over directly in it: the expansions as they stand, and the text between two of them
in one piece. That takes two facts about trees: an expression holds no nodes but expansions, and no
leaf is empty (`Reading.filled`).
-/

namespace MakeTree

namespace Tree

/-- A continuation or a skipped character. -/
def isPassedOver : Tree → Bool
  | leaf .continuation _ => true
  | leaf .skipped _ => true
  | _ => false

/-- No leaf of the trees is empty. -/
def Filled (ts : List Tree) : Prop := ∀ l ∈ leavesOf ts, l.2 ≠ []

namespace Filled

variable {ts us : List Tree} {vs : List Trivia}

theorem append (h : Filled ts) (h' : Filled us) : Filled (ts ++ us) := by
  intro l hl
  rw [leavesOf_append] at hl
  exact (List.mem_append.1 hl).elim (h l) (h' l)

theorem node {k : NodeKind} (h : Filled ts) : Filled [.node k ts] := by
  intro l hl
  rw [leavesOf, leavesOf, List.append_nil] at hl
  exact h l hl

theorem leaf {k : LeafKind} {s : Text} (h : s ≠ []) : Filled [.leaf k s] :=
  List.forall_mem_singleton.2 h

theorem trivia (h : ∀ v ∈ vs, v.Valid) : Filled (vs.map Trivia.tree) := by
  rw [Filled, leavesOf_trivia, List.forall_mem_map]
  intro v hv
  have hvalid := h v hv
  cases v with
  | continuation s =>
    obtain ⟨b, -, rfl⟩ := hvalid
    exact List.cons_ne_nil _ _
  | skipped c => exact List.cons_ne_nil _ _

end Filled

end Tree

theorem Lexer.rest_ne_nil_of_unclosed {lx : Lexer} (hf : lx.frames = [])
    (hu : lx.unclosed?.isSome = true) : lx.rest ≠ [] := by
  intro hr
  rw [unclosed?, run_of_rest hr, hf] at hu
  cases hu

open MakeTree.Tree

/-- Trees that hold the nests of lexemes have no empty leaves, since no token is empty. -/
theorem Reading.filled {P : NodeKind → Prop} {k : NodeKind} {ns : List Nest} {ts : List Tree}
    (h : Reading P k ns ts) {xs : List Lexeme} {start : Nat} (hn : ns = xs.map Nest.ofLexeme)
    (hs : Lexeme.Seated start xs) (hx : ∀ x ∈ xs, x.token.text ≠ []) : Filled ts := by
  induction h generalizing xs start with
  | nil => exact fun _ hl => absurd hl List.not_mem_nil
  | append _ _ ih ih' =>
    obtain ⟨ys, zs, rfl, ⟨hy, h₁⟩, hz, h₂⟩ := Lexeme.seated_split hn.symm hs
    exact (ih hy.symm h₁ fun y h => hx y (List.mem_append_left zs h)).append
      (ih' hz.symm h₂ fun z h => hx z (List.mem_append_right ys h))
  | node _ _ ih => exact (ih hn hs hx).node
  | leaf k x =>
    obtain ⟨y, rfl, hy⟩ := Nest.map_ofLexeme_eq_singleton hn
    obtain ⟨rfl, -⟩ := Nest.ofLexeme_eq_leaf hy
    exact (Filled.trivia hs.1.leading).append (.leaf (hx y List.mem_cons_self))
  | quoted x trailing _ ih =>
    obtain ⟨y, rfl, hy⟩ := Nest.map_ofLexeme_eq_singleton hn
    obtain ⟨rfl, hk, -, hi⟩ := Nest.ofLexeme_eq_quoted hy
    obtain ⟨q, hq⟩ := hs.1.literal hk
    obtain ⟨hf, rfl⟩ := Lexer.lexemes_of_nests hi
    obtain ⟨hseated, htrailing⟩ := y.token.inside.seated_lexemes
    have hin := ih hf hseated fun z hz => by
      obtain ⟨_, _, _, hstep, -⟩ := Lexer.step_of_lexeme hz
      exact (Lexer.step_spelled hstep).text
    rw [Lexeme.openQuote_eq hq, Lexeme.closeQuote_eq hq]
    have hopen : Filled (y.leading.map Trivia.tree ++ [.leaf .quote [q]]) :=
      (Filled.trivia hs.1.leading).append (.leaf (List.cons_ne_nil _ _))
    exact ((hopen.append hin).append (.trivia htrailing)).append (.leaf (List.cons_ne_nil _ _))
  | raw x _ =>
    obtain ⟨y, rfl, hy⟩ := Nest.map_ofLexeme_eq_singleton hn
    obtain ⟨rfl, -, -⟩ := Nest.ofLexeme_eq_raw hy
    exact (Filled.trivia hs.1.leading).append (.leaf (hx y List.mem_cons_self))
  | operand x _ =>
    obtain ⟨y, rfl, hy⟩ := Nest.map_ofLexeme_eq_singleton hn
    obtain ⟨rfl, hk, hu⟩ := Nest.ofLexeme_eq_raw hy
    obtain ⟨q, hq⟩ := hs.1.literal hk
    have hin : Filled [.node .expression [.leaf (.token .plainText) y.token.inside.rest]] :=
      (Filled.leaf (Lexer.rest_ne_nil_of_unclosed rfl hu)).node
    rw [Lexeme.openQuote_eq hq, Lexeme.closeQuote_eq hq]
    have hopen : Filled (y.leading.map Trivia.tree ++ [.leaf .quote [q]]) :=
      (Filled.trivia hs.1.leading).append (.leaf (List.cons_ne_nil _ _))
    exact hopen.append (hin.append (.leaf (List.cons_ne_nil _ _)))

theorem Lexer.result_filled {text : Text} {c : Char} {strict : Bool} {t : Tree}
    (h : (start text c).result strict = .ok t) {k : NodeKind} {us : List Tree}
    (hs : Subtree (.node k us) t) : Filled us := by
  obtain ⟨ts, rfl, hl, -⟩ := result_laid h
  have hn : (start text c).nests = ((start text c).nests.1, (start text c).nests.2) := rfl
  obtain ⟨hf, ht⟩ := lexemes_of_nests hn
  obtain ⟨hseated, htrailing⟩ := (start text c).seated_lexemes
  have hheld := hl.reading.filled hf hseated fun x hx => by
    obtain ⟨_, _, _, hstep, -⟩ := step_of_lexeme hx
    exact (step_spelled hstep).text
  have hall := hheld.append (.trivia (ht ▸ htrailing))
  exact fun l hm => hall l (hs.leaves_subset hm)

namespace Fragment

def isText : Fragment → Bool
  | text _ => true
  | expansion _ => false

def expansion? : Fragment → Option Expansion
  | text _ => none
  | expansion e => some e

theorem prepend_cases (s : Text) (fs : List Fragment) :
    (∃ u gs, fs = text u :: gs ∧ prepend s fs = text (s ++ u) :: gs) ∨
      (∀ f ∈ fs.head?, f.isText = false) ∧ prepend s fs = text s :: fs := by
  match fs with
  | [] => exact .inr ⟨nofun, rfl⟩
  | text u :: gs => exact .inl ⟨u, gs, rfl, rfl⟩
  | expansion e :: gs => exact .inr ⟨by rintro _ ⟨⟩; rfl, rfl⟩

theorem addChild_cases {t : Tree} (hk : kinds [t] ⊆ [.expansion]) (fs : List Fragment) :
    (∃ k s, t = .leaf k s ∧ t.isPassedOver = true ∧ addChild t fs = fs) ∨
      (∃ k s, t = .leaf k s ∧ t.isPassedOver = false ∧ addChild t fs = prepend s fs) ∨
      ∃ e : Expansion, t = e.tree ∧ addChild t fs = expansion e :: fs := by
  cases t with
  | leaf k s =>
    cases k with
    | token k => exact .inr (.inl ⟨_, s, rfl, rfl, rfl⟩)
    | quote => exact .inr (.inl ⟨_, s, rfl, rfl, rfl⟩)
    | continuation => exact .inl ⟨_, s, rfl, rfl, rfl⟩
    | skipped => exact .inl ⟨_, s, rfl, rfl, rfl⟩
  | node k us =>
    obtain rfl : k = .expansion := by simpa using hk
    exact .inr (.inr ⟨⟨us⟩, rfl, rfl⟩)

/-- Fragments of an expression with the children `ts`: their text is that of the children but for
what was passed over, and between any two pieces of text there is an expansion. -/
structure Pieces (ts : List Tree) (fs : List Fragment) : Prop where
  source : fs.flatMap source = textOf (ts.filter (!·.isPassedOver))
  filled : ∀ s, text s ∈ fs → s ≠ []
  apart : fs.IsChain fun f g => f.isText = true → g.isText = false
  expansions : fs.filterMap expansion? = (⟨ts⟩ : Expression).expansions

namespace Pieces

variable {ts : List Tree} {fs : List Fragment}

theorem nil : Pieces [] [] where
  source := rfl
  filled := fun _ hs => absurd hs List.not_mem_nil
  apart := .nil
  expansions := rfl

theorem passOver (h : Pieces ts fs) {k : LeafKind} {s : Text}
    (hp : (Tree.leaf k s).isPassedOver = true) : Pieces (.leaf k s :: ts) fs where
  source := by
    rw [List.filter_cons_of_neg (by simp [hp])]
    exact h.source
  filled := h.filled
  apart := h.apart
  expansions := h.expansions

theorem addText (h : Pieces ts fs) {k : LeafKind} {s : Text}
    (hp : (Tree.leaf k s).isPassedOver = false) (hs : s ≠ []) :
    Pieces (.leaf k s :: ts) (prepend s fs) := by
  have hsource : textOf ((Tree.leaf k s :: ts).filter (!·.isPassedOver)) =
      s ++ fs.flatMap Fragment.source := by
    rw [List.filter_cons_of_pos (by simp [hp]), h.source]
    rfl
  obtain ⟨u, gs, rfl, hpre⟩ | ⟨hhead, hpre⟩ := prepend_cases s fs
  · rw [hpre]
    -- the text goes into the first fragment
    refine ⟨?_, fun v hv => ?_, ?_, h.expansions⟩
    · rw [hsource]
      simp [Fragment.source]
    · rcases List.mem_cons.1 hv with he | hv
      · cases he
        exact List.append_ne_nil_of_left_ne_nil hs u
      · exact h.filled v (List.mem_cons_of_mem _ hv)
    · have hchain := List.isChain_cons.1 h.apart
      exact List.isChain_cons.2 ⟨fun g hg _ => hchain.1 g hg rfl, hchain.2⟩
  · rw [hpre]
    refine ⟨hsource.symm, fun v hv => ?_, ?_, h.expansions⟩
    · rcases List.mem_cons.1 hv with he | hv
      · cases he
        exact hs
      · exact h.filled v hv
    · exact List.isChain_cons.2 ⟨fun g hg _ => hhead g hg, h.apart⟩

theorem addExpansion (h : Pieces ts fs) (e : Expansion) :
    Pieces (e.tree :: ts) (expansion e :: fs) where
  source := by
    rw [List.filter_cons_of_pos rfl, List.flatMap_cons, h.source]
    rfl
  filled s hs := by
    rcases List.mem_cons.1 hs with he | hs
    · cases he
    · exact h.filled s hs
  apart := List.isChain_cons.2 ⟨fun _ _ hf => (Bool.false_ne_true hf).elim, h.apart⟩
  expansions := by
    rw [List.filterMap_cons, h.expansions]
    rfl

theorem foldr (hk : kinds ts ⊆ [.expansion]) (hs : ∀ k s, .leaf k s ∈ ts → s ≠ []) :
    Pieces ts (ts.foldr addChild []) := by
  induction ts with
  | nil => exact .nil
  | cons t ts ih =>
    rw [← List.singleton_append, kinds_append, List.append_subset] at hk
    have hrest : Pieces ts (ts.foldr addChild []) :=
      ih hk.2 fun k s h => hs k s (List.mem_cons_of_mem t h)
    rw [List.foldr_cons]
    obtain ⟨k, s, rfl, hp, he⟩ | ⟨k, s, rfl, hp, he⟩ | ⟨e, rfl, he⟩ :=
      addChild_cases hk.1 (ts.foldr addChild [])
    · rw [he]
      exact hrest.passOver hp
    · rw [he]
      exact hrest.addText hp (hs k s List.mem_cons_self)
    · rw [he]
      exact hrest.addExpansion e

end Pieces

end Fragment

namespace Node

/-- The fragments of an expression put together are its text, without what was passed over directly
in it. Without expansions there is one piece of text at most. -/
structure ShowsFragments (e : Expression) : Prop extends
    Fragment.Pieces e.children e.fragments where
  isLiteral_iff : e.isLiteral = true ↔ ∀ f ∈ e.fragments, f.isText = true
  length_le : e.isLiteral = true → e.fragments.length ≤ 1

theorem showsFragments {e : Expression} (h : Fragment.Pieces e.children e.fragments) :
    e.ShowsFragments := by
  have hliteral : e.isLiteral = true ↔ ∀ f ∈ e.fragments, f.isText = true := by
    have hx : e.fragments.filterMap Fragment.expansion? = e.expansions := h.expansions
    rw [isLiteral, List.isEmpty_iff, ← hx, List.filterMap_eq_nil_iff]
    refine forall₂_congr fun f _ => ?_
    cases f with
    | text s => simp [Fragment.expansion?, Fragment.isText]
    | expansion e => simp [Fragment.expansion?, Fragment.isText]
  refine ⟨h, hliteral, fun hl => ?_⟩
  have hall := hliteral.1 hl
  have hapart := h.apart
  generalize e.fragments = fs at hall hapart
  match fs with
  | [] => exact Nat.zero_le 1
  | [f] => exact le_rfl
  | f :: g :: gs =>
    have hg : g.isText = false :=
      (List.isChain_cons.1 hapart).1 g rfl (hall f List.mem_cons_self)
    rw [hall g (List.mem_cons_of_mem f List.mem_cons_self)] at hg
    cases hg

end Node

/-- The fragments of every expression of a tree put it together again, but for what was passed over
directly in it. -/
theorem parse_fragments {text : Text} {options : Options} {t : Tree}
    (h : (parse text options).result = .ok t) {p : Placed} (hp : p ∈ t.subtrees) {e : Expression}
    (he : p.tree = e.tree) : e.ShowsFragments := by
  rw [parse_result_start] at h
  have hsub : Subtree e.tree t := he ▸ subtree_of_placed hp
  have hconforms : e.Conforms := Lexer.result_conforming h .expression t List.mem_cons_self _ hsub
  have hfilled : Filled e.children := Lexer.result_filled h hsub
  refine Node.showsFragments (Fragment.Pieces.foldr hconforms fun k s hm => ?_)
  obtain ⟨us, vs, hsplit⟩ := List.append_of_mem hm
  refine hfilled (k, s) ?_
  rw [hsplit, leavesOf_append]
  exact List.mem_append_right _ List.mem_cons_self

/-- The value of an assignment: text on both sides of an expansion, and what was passed over in
front of each. -/
theorem parse_fragments_continued : ∃ (t : Tree) (p : Placed) (e : Expression),
    (parse "a=b\\\n$(c)\x01d\n".toList {}).result = .ok t ∧ p ∈ t.subtrees ∧ p.tree = e.tree ∧
      e.ShowsFragments := by
  let e : Expression := ⟨[.leaf (.token .plainText) ['b'],
    .node .expansion [.leaf .continuation ['\\', '\n'], .leaf (.token .expansionPrefix) ['$', '('],
      .node .expression [.leaf (.token .plainText) ['c']], .leaf (.token .expansionSuffix) [')']],
    .leaf .skipped ['\x01'], .leaf (.token .plainText) ['d']]⟩
  let a : Tree := .node .assignment [.node .expression [.leaf (.token .plainText) ['a']],
    .leaf (.token .assignOp) ['='], e.tree, .leaf (.token .lineBreak) ['\n']]
  have h : (parse "a=b\\\n$(c)\x01d\n".toList {}).result = .ok (.node .root [a]) := by cbv
  have hp : (⟨2, 2, e.tree⟩ : Placed) ∈ (Tree.node .root [a]).subtrees :=
    List.mem_of_getElem? (i := 5) rfl
  exact ⟨_, _, e, h, hp, rfl, parse_fragments h hp rfl⟩

end MakeTree
