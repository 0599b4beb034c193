import Mathlib
import MakeTree.Proofs.Bodies
import MakeTree.Proofs.Openers
import MakeTree.Proofs.TreeGrammar

/-!
Brackets of the lexer and expansions of the tree are the same (`parse_expansions`): each token that
opens a frame opens one expansion, and what closes the frame ends the expansion.
-/

namespace MakeTree

namespace Placed

/-- Whether the tree is an expansion and `x` is the first token in it. -/
def opensWith (x : Token) (p : Placed) : Bool :=
  p.expansion?.any fun e => Tree.opening? e == some (x.spot .expansion)

/-- The tree is an expansion and `y` is the last leaf in it. -/
def ClosesWith (y : Token) (p : Placed) : Prop :=
  p.expansion?.bind Tree.closing? = some (y.spot .expansion)

end Placed

namespace Tree

theorem Located.subtree {t : Tree} {x y : Token} (h : Located 0 [t] x y) :
    ∃ e, t.subtrees.filter (Placed.opensWith x) = [e] ∧ e.ClosesWith y := by
  obtain ⟨-, e, he, hc⟩ := h
  have hf : (t.subtrees.filter (Placed.opensWith x)).filterMap Placed.expansion? = [e] := by
    rw [← he, expansionsOf, expansionsOf, List.append_nil, ← filterMap_placed 0, openedBy,
      List.filter_filterMap, List.filterMap_filter]
    congr 1
    funext p
    cases hp : p.expansion? <;> simp [Placed.opensWith, hp, Option.filter_some]
  have none_left {ps : List Placed} (hs : ps ⊆ t.subtrees.filter (Placed.opensWith x))
      (hn : ∀ p ∈ ps, p.expansion? = none) : ps = [] := by
    refine List.eq_nil_iff_forall_not_mem.2 fun p hp => ?_
    have ho := (List.mem_filter.1 (hs hp)).2
    rw [Placed.opensWith, hn p hp] at ho
    cases ho
  obtain ⟨before, p, after, hps, hb, hp, ha⟩ := List.filterMap_eq_cons_iff.1 hf
  obtain rfl := none_left (hps ▸ List.subset_append_left ..) hb
  obtain rfl := none_left (hps ▸ fun q hq => by simp [hq]) (List.filterMap_eq_nil_iff.1 ha)
  exact ⟨p, hps, by rw [Placed.ClosesWith, hp]; exact hc⟩

end Tree

namespace Lexer

variable {text : Text} {c : Char} {strict : Bool} {t : Tree}

/-- Every token that opens a frame of an expansion has its expansion in the tree. -/
theorem result_located (h : (start text c).result strict = .ok t) {x : Token}
    (hx : x ∈ (start text c).tokens) (hk : x.kind = .expansionPrefix) :
    ∃ y : Token, y.kind = .expansionSuffix ∧ (∀ s, (start text c).Pops x s ↔ s = y) ∧
      Tree.Located 0 [t] x y := by
  rw [tokens, ← Piece.lexemes_token []] at hx
  obtain ⟨o, ho, rfl⟩ := List.mem_map.1 hx
  have hu := (refusal_eq_none.1 (result_ok h).1).2
  obtain ⟨y, hb, hy, hp⟩ := pops_start hu ho hk
  obtain ⟨ts, rfl, hl, -⟩ := result_laid h
  have hn : (start text c).nests = ((start text c).nests.1, (start text c).nests.2) := rfl
  obtain ⟨hf, -⟩ := lexemes_of_nests hn
  have hloc := hl.located hf.symm (start text c).seated_lexemes.1 _ hb
  exact ⟨y.token, hy, hp, hloc.left.of_eq (Tree.expansionsOf_node (by decide))⟩

theorem result_bodied (h : (start text c).result strict = .ok t) : Placed.Bodied t.subtrees := by
  obtain ⟨ts, rfl, hl, -⟩ := result_laid h
  refine Placed.Bodied.cons ?_ nofun
  rw [Tree.placedOf_append]
  exact (hl.bodied _ _).append ((Tree.Unbroken.trivia _).bodied _ _)

end Lexer

/-- The lexer and the grammar agree on expansions. In a tree each token that opens a frame of an
expansion opens one expansion, whose last leaf is the one token that closes the frame, and only the
bodies of definitions hold expansions that go on behind a line break. A text that is no tree is never
refused for a token that closes an expansion, nor for the lack of one but at a line break. -/
theorem parse_expansions (text : Text) (options : Options) :
    (∀ t, (parse text options).result = .ok t →
      (∃ tokens, (tokenize text options.recipePrefix).2 = .ok tokens ∧
        ∀ x ∈ tokens, x.kind = .expansionPrefix → ∃ (y : Token) (e : Placed),
          y.kind = .expansionSuffix ∧
          (∀ s, (Lexer.start text options.recipePrefix).Pops x s ↔ s = y) ∧
          t.subtrees.filter (Placed.opensWith x) = [e] ∧ e.ClosesWith y) ∧
      Placed.Bodied t.subtrees) ∧
    (∀ found expected,
      (parse text options).result = .error (.parse (.unexpectedToken found expected)) →
        found.kind ≠ .expansionSuffix ∧
        (.token .expansionSuffix ∈ expected → found.kind = .lineBreak)) ∧
    ∀ expected, (parse text options).result = .error (.parse (.unexpectedEnd expected)) →
      .token .expansionSuffix ∉ expected := by
  rw [parse_result_start]
  refine ⟨fun t h => ⟨⟨_, tokenize_tokens (Lexer.refusal_eq_none.1 (Lexer.result_ok h).1).2, ?_⟩,
    Lexer.result_bodied h⟩, fun found expected h => ?_, fun expected h => ?_⟩
  · intro x hx hk
    obtain ⟨y, hy, hp, hloc⟩ := Lexer.result_located h hx hk
    obtain ⟨e, he, hc⟩ := hloc.subtree
    exact ⟨y, e, hy, hp, he, hc⟩
  · cases Lexer.result_blames h with
    | token _ hk he => exact ⟨hk, he⟩
  · cases Lexer.result_blames h with
    | atEnd he => exact he

/-- A call by itself, one that is not closed in its line, and a text that ends too early. -/
theorem parse_expansions_call :
    (∃ (t : Tree) (x y : Token) (e : Placed), (parse "$(b)\n".toList {}).result = .ok t ∧
      x.kind = .expansionPrefix ∧ y.kind = .expansionSuffix ∧
      (∀ s, (Lexer.start "$(b)\n".toList '\t').Pops x s ↔ s = y) ∧
      t.subtrees.filter (Placed.opensWith x) = [e] ∧ e.ClosesWith y ∧ Placed.Bodied t.subtrees) ∧
    (∃ found, (parse "$(a\n)\n".toList {}).result =
        .error (.parse (.unexpectedToken found [.token .expansionSuffix])) ∧
      found.kind ≠ .expansionSuffix ∧ found.kind = .lineBreak) ∧
    ∃ expected, (parse "ifdef a\n".toList {}).result = .error (.parse (.unexpectedEnd expected)) ∧
      .token .expansionSuffix ∉ expected := by
  refine ⟨?_, ⟨⟨.lineBreak, ['\n'], ⟨1, 4, 3⟩⟩, ?_⟩, ?_⟩
  · obtain ⟨t, hr⟩ : ∃ t, (parse "$(b)\n".toList {}).result = .ok t := exists_result (by cbv)
    have hk : (tokenize "$(b)\n".toList '\t').2 = .ok [⟨.expansionPrefix, ['$', '('], ⟨1, 1, 0⟩⟩,
        ⟨.plainText, ['b'], ⟨1, 3, 2⟩⟩, ⟨.expansionSuffix, [')'], ⟨1, 4, 3⟩⟩,
        ⟨.lineBreak, ['\n'], ⟨1, 5, 4⟩⟩] := by cbv
    obtain ⟨⟨tokens, ht, hx⟩, hb⟩ := (parse_expansions "$(b)\n".toList {}).1 t hr
    rw [hk] at ht
    obtain rfl := Except.ok.inj ht
    obtain ⟨y, e, hy, hp, he, hc⟩ := hx _ List.mem_cons_self rfl
    exact ⟨t, _, y, e, hr, rfl, hy, hp, he, hc, hb⟩
  · have h : (parse "$(a\n)\n".toList {}).result = .error (.parse (.unexpectedToken
        ⟨.lineBreak, ['\n'], ⟨1, 4, 3⟩⟩ [.token .expansionSuffix])) := by cbv
    obtain ⟨hk, he⟩ := (parse_expansions _ _).2.1 _ _ h
    exact ⟨h, hk, he List.mem_cons_self⟩
  · have h : (parse "ifdef a\n".toList {}).result = .error (.parse (.unexpectedEnd
        [.token (.keyword .otherwise), .token (.keyword .endif)])) := by cbv
    exact ⟨_, h, (parse_expansions _ _).2.2 _ h⟩

end MakeTree
