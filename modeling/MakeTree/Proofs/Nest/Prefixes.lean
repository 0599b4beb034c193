import Mathlib.Data.List.Chain
import MakeTree.Proofs.Lexer.Prefix
import MakeTree.Proofs.Nest.Sound

/-!
Recipe prefixes among nests. In front of one there is a line break or nothing
(`prefixesLead_nests`).
-/

namespace MakeTree

namespace Lexer

variable {lx last : Lexer} {ps : List Piece}

theorem Steps.prefixesLead (h : Steps lx ps last) (leading : List Trivia) :
    (∀ x ∈ (Piece.lexemes leading ps).1.head?,
      x.token.kind = .recipePrefix → lx.atLineStart = true) ∧
    (Piece.lexemes leading ps).1.IsChain
      fun x y => y.token.kind = .recipePrefix → x.token.kind = .lineBreak := by
  induction h generalizing leading with
  | nil => exact ⟨fun x hx => absurd hx (by simp [Piece.lexemes]), .nil⟩
  | @cons lx next last p ps hs h ih =>
    have hfresh := step_fresh hs
    cases p with
    | continuation s =>
      obtain ⟨hhead, hchain⟩ := ih (leading ++ [.continuation s])
      have hline : next.atLineStart = lx.atLineStart := hfresh
      exact ⟨fun x hx hk => hline ▸ hhead x hx hk, hchain⟩
    | illegal q c =>
      obtain ⟨hhead, hchain⟩ := ih (leading ++ [.skipped c])
      have hline : next.atLineStart = false := hfresh
      exact ⟨fun x hx hk => absurd (hhead x hx hk) (by simp [hline]), hchain⟩
    | token t change =>
      obtain ⟨hhead, hchain⟩ := ih []
      refine ⟨fun x hx hk => ?_, List.isChain_cons.2 ⟨fun y hy hk => ?_, hchain⟩⟩
      · obtain rfl : ⟨leading, t⟩ = x := Option.some.inj hx
        exact (step_isRecipePrefix hs (by simpa [Piece.isRecipePrefix] using hk)).2.2.1
      · have hline : next.atLineStart = (t.kind == .lineBreak) := hfresh
        exact beq_iff_eq.1 (hline ▸ hhead y hy hk)

end Lexer

namespace Nest

theorem prefixesLead_nests (lx : Lexer) : (flattenAll lx.nests.1).IsChain
    fun m n => n.kind = .recipePrefix → m.isLineBreak = true := by
  have hn : lx.nests = (lx.nests.1, lx.nests.2) := rfl
  rw [(Lexer.lexemes_of_nests hn).1]
  refine (List.isChain_map ofLexeme).2 ((lx.steps_run.prefixesLead []).2.imp fun x y h => ?_)
  simpa [isLineBreak, kind, token, first_ofLexeme] using h

end Nest

end MakeTree
