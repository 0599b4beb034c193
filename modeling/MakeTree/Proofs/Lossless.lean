import Mathlib
import MakeTree.Proofs.Grammar.Extent
import MakeTree.Proofs.Nest.Placement
import MakeTree.Proofs.Outcome

/-!
No text is lost. The leaves of a tree, in order, are the text it comes of (`parse_lossless`), with
what the lexer passes over, the insides of literals and what follows the last token.
-/

namespace MakeTree

/-- The tree of a text holds the flat nests of the text, and what follows them. -/
theorem Lexer.result_reading {text : Text} {c : Char} {strict : Bool} {t : Tree}
    (h : (start text c).result strict = .ok t) : ∃ ts,
      t = .node .root (ts ++ (start text c).nests.2.map Trivia.tree) ∧
      Reading (fun _ => True) .root (Nest.flattenAll (start text c).nests.1) ts := by
  obtain ⟨-, ts, rfl, hp⟩ := result_ok h
  obtain ⟨used, hu, hs⟩ := hp.extent
  rw [List.append_nil] at hu
  have hr := hs .root (by decide)
  rw [Parser.Task.line, List.nil_append, ← hu, flatten_lines] at hr
  exact ⟨ts, rfl, hr⟩

/-- The text of a tree is the text that was parsed. -/
theorem parse_lossless {text : Text} {options : Options} {t : Tree}
    (h : (parse text options).result = .ok t) : t.text = text := by
  rw [parse_result_start] at h
  obtain ⟨ts, rfl, hr⟩ := Lexer.result_reading h
  set lx := Lexer.start text options.recipePrefix
  have hn : lx.nests = (lx.nests.1, lx.nests.2) := rfl
  obtain ⟨hf, ht⟩ := Lexer.lexemes_of_nests hn
  rw [Tree.text, Tree.textOf_append, Lexeme.textOf_trivia, ht,
    hr.text hf lx.seated_lexemes.1, lx.lexemes_text]
  rfl

/-- With a literal, a continuation and an illegal character in it. -/
theorem parse_lossless_passedOver :
    ∃ t, (parse "a='$b'\\\n\x01\n".toList {}).result = .ok t ∧
      t.text = "a='$b'\\\n\x01\n".toList := by
  obtain ⟨t, ht⟩ : ∃ t, (parse "a='$b'\\\n\x01\n".toList {}).result = .ok t :=
    exists_result (by cbv)
  exact ⟨t, ht, parse_lossless ht⟩

end MakeTree
