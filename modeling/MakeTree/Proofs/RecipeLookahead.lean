import Mathlib
import MakeTree.Proofs.Reached

/-!
The lookahead for a conditional in a recipe agrees with its parser (`parse_recipe_lookahead`).
Where the lookahead has found an `endif`, the parser takes the lines up to that, or refuses one of
them by itself. So it does not come to the end of the text there, and finds no line that could not be
part of a recipe.
-/

namespace MakeTree

namespace Lexer

theorem lexed_suffix {text : Text} {c : Char} (hu : (start text c).unclosed? = none)
    {ms : List Nest} (hs : ms <:+ (start text c).nests.1) : Line.Lexed (Line.split ms) := by
  obtain ⟨us, he⟩ := hs
  have hsound : Nest.SoundAll (start text c).nests.1 := soundAll_nests hu rfl
  have hcomments := Nest.commentsEnd_nests (start text c)
  rw [← he] at hsound hcomments
  refine ⟨Line.cut_split ms, ?_, fun n hn => plain_start hu n (he ▸ ?_), ?_⟩
  · rw [Line.flatten_split]
    exact (Nest.soundAll_append.1 hsound).2
  · rw [Line.flatten_split] at hn
    exact List.mem_append_right us hn
  · rw [Line.flatten_split]
    exact hcomments.right

end Lexer

namespace Parser

open LineKind

/-- What comes of a conditional in a recipe: the lines of `block` are taken and those of `after` are
left, or one of them is refused by itself. -/
def Agrees (line : Line) (lines : List Line) (block after : List LineKind) :
    EStateM.Result ParseError Cursor (Rest lines) → Prop
  | .ok rest s => s.unread = [] ∧ ∃ used, lines = used ++ rest.1 ∧
      ofLines (line :: used) = block ∧ ofLines rest.1 = after
  | .error e _ => Fault e

theorem agrees_conditional {line : Line} {lines : List Line} {c : ConditionalKind}
    (hl : Line.Lexed (line :: lines)) (hk : ofLine line = .keyword (.conditional c))
    {block after : List LineKind} (he : ofLines (line :: lines) = block ++ after)
    (hb : RecipeBlock block) (outer : List Tree) (es : List Event) :
    Agrees line lines block after (conditional .recipe lines ⟨line, outer, es⟩) := by
  have hcond := LineKind.kind_of_keyword hk
  have hg : GoodLines (line :: lines) := hl.cut.good hl.closed
  cases hr : conditional .recipe lines ⟨line, outer, es⟩ with
  | ok rest s =>
    obtain ⟨ts, hu, -, hp⟩ := (soundBelow lines.length).conditional_of (hg line List.mem_cons_self)
      (hg.suffix (List.suffix_cons _ _)) .recipe hcond outer es rest s hr
    obtain ⟨used, hlines, solid, hused, body, hbody, hm⟩ := hp.scanned
    obtain ⟨rest, hle⟩ := rest
    simp only at hlines
    subst hlines
    have hl : Line.Lexed ((line :: used) ++ rest) := hl
    have hmine : ofLines (line :: used) = .keyword (.conditional c) :: (body ++ [.keyword .endif]) := by
      rw [ofLines_solid hl.left.cut hl.left.closed (SolidLines.cons solid hused), List.map_cons,
        hk, hbody]
    rw [← List.cons_append, ofLines_append hl.cut hl.left.closed, hmine] at he
    obtain ⟨hblock, hafter⟩ := hb.unique hm he
    exact ⟨hu, used, rfl, hmine.trans hblock.symm, hafter⟩
  | error e s =>
    have hf : (Task.conditional .recipe line).Fails lines e :=
      fails_of_error ((below .same lines.length).conditional_of (Likeness.same_lines lines) .recipe) hr
    have ho : (Task.conditional .recipe line).On (line :: lines) lines :=
      ⟨⟨c, hcond⟩, [], List.suffix_refl _⟩
    have hopens : (Task.conditional .recipe line).Enclosed lines := by
      change Opens (ofLines (line :: lines))
      rw [he]
      exact hb.opens after
    exact fault_of_fails hl ho trivial hopens hf

end Parser

/-- Where the lookahead takes what is left of a text for a conditional in a recipe, the parser of
such conditionals takes the lines up to the `endif` that closes it, or refuses a line by itself: for
its test, for what is left over behind a directive, for an expansion that goes on behind the line or
for a second `else`. So does the parser wherever it comes to a conditional in a recipe, and no text
is refused there at its end, or for a line that is neither a command nor a directive. -/
theorem parse_recipe_lookahead (text : Text) (options : Options) :
    ((Lexer.start text options.recipePrefix).refusal options.strict = none →
      (∀ ms line lines c, ms <:+ (Lexer.start text options.recipePrefix).nests.1 →
        Line.split ms = line :: lines → LineKind.ofLine line = .keyword (.conditional c) →
        Line.isRecipeConditional (line :: lines) = true → ∃ block after,
          LineKind.ofLines (line :: lines) = block ++ after ∧ LineKind.RecipeBlock block ∧
          ∀ outer es, Parser.Agrees line lines block after
            (Parser.conditional .recipe lines ⟨line, outer, es⟩)) ∧
      ∀ line lines e,
        (Lexer.start text options.recipePrefix).Reaches (.conditional .recipe line) lines →
          (Parser.Task.conditional .recipe line).Fails lines e →
            Fault e ∧ e.position?.isSome = true) ∧
    ∀ e, (parse text options).result = .error (.parse e) → e.expected ≠
      [.token .recipePrefix, .token (.keyword .otherwise), .token (.keyword .endif)] := by
  refine ⟨fun h => ⟨?_, ?_⟩, ?_⟩
  · intro ms line lines c hs hsplit hk hc
    have hl := Lexer.lexed_suffix (Lexer.refusal_eq_none.1 h).2 hs
    rw [hsplit] at hl
    obtain ⟨ks, hks⟩ := LineKind.ofLines_cons hl.cut hl.closed
    rw [Line.isRecipeConditional, hks, hk, LineKind.endsInRecipe_conditional] at hc
    obtain ⟨block, after, hblock, hb⟩ := hc
    rw [← hk, ← hks] at hblock
    exact ⟨block, after, hblock, hb, Parser.agrees_conditional hl hk hblock hb⟩
  · intro line lines e hreach hf
    have hu := (Lexer.refusal_eq_none.1 h).2
    have hfault := Parser.fault_of_fails (Lexer.lexed_lines hu) hreach.on trivial (hreach.seen hu) hf
    exact ⟨hfault, hfault.position?_isSome⟩
  · intro e he
    rw [parse_result_start] at he
    obtain hun | ⟨-, -, -, heq, -⟩ := Lexer.unforeseen_of_result he
    · intro heq
      exact hun (heq ▸ by decide)
    · rw [heq]
      decide

/-- The lookahead takes all the lines in front of a rule, and so does the parser. -/
theorem parse_recipe_lookahead_block :
    ∃ line lines block after, (Lexer.start "ifdef A\n\tb\nendif\nc:\n".toList '\t').lines =
        line :: lines ∧ Line.isRecipeConditional (line :: lines) = true ∧
      LineKind.ofLines (line :: lines) = block ++ after ∧ LineKind.RecipeBlock block ∧
      ∀ outer es, Parser.Agrees line lines block after
        (Parser.conditional .recipe lines ⟨line, outer, es⟩) := by
  have h : (Lexer.start "ifdef A\n\tb\nendif\nc:\n".toList '\t').refusal false = none := by cbv
  have hkinds : (Lexer.start "ifdef A\n\tb\nendif\nc:\n".toList '\t').lines.map LineKind.ofLine =
    [.keyword (.conditional .ifdef), .recipe, .keyword .endif, .other] := by cbv
  obtain ⟨line, lines, hl, hk, -⟩ := List.map_eq_cons_iff.1 hkinds
  have hs : Line.split (Lexer.start "ifdef A\n\tb\nendif\nc:\n".toList '\t').nests.1 =
    line :: lines := hl
  have hlook : Line.isRecipeConditional (line :: lines) = true := by
    rw [← hl]
    cbv
  obtain ⟨block, after, hrest⟩ := ((parse_recipe_lookahead "ifdef A\n\tb\nendif\nc:\n".toList
    {}).1 h).1 _ line lines .ifdef (List.suffix_refl _) hs hk hlook
  exact ⟨line, lines, block, after, hl, hlook, hrest⟩

end MakeTree
