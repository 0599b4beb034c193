import MakeTree.Proofs.Lexer.Words
import MakeTree.Proofs.Nest.Levels
import MakeTree.Proofs.Nest.Sound

/-!
Keywords and expansions. The lexer makes a keyword of a word only where no frame is open
(`step_keyword`), so there is none within an expansion (`plain_start`).
-/

namespace MakeTree

namespace Nest

/-- A keyword in the nest is the nest. -/
def Plain (n : Nest) : Prop := ∀ m ∈ n.flatten, ∀ k, m.kind = .keyword k → m = n

end Nest

namespace Lexer

variable {lx last : Lexer}

theorem Covers.plain {n : Nest} (hc : n.Closed) {xs : List Lexeme}
    (hx : xs.map Nest.ofLexeme = n.flatten) (h : lx.Covers xs [] last) : n.Plain := by
  intro m hm k hk
  cases n with
  | leaf x => exact List.mem_singleton.1 hm
  | quoted x inside trailing => exact List.mem_singleton.1 hm
  | raw x => exact List.mem_singleton.1 hm
  | expansion opener body closer =>
    rcases List.mem_cons.1 hm with rfl | hm
    · exact absurd (hk.symm.trans hc.1) (by simp)
    · obtain ⟨mid, next, f, ⟨ps, change, -, hs⟩, pre, he⟩ := takes_nest hc hx h hm
      rw [step_keyword hs hk] at he
      exact absurd (List.append_eq_nil_iff.1 he).2 (List.cons_ne_nil _ _)

/-- In a text no keyword stands within an expansion. -/
theorem plain_start {text : Text} {c : Char} (h : (start text c).unclosed? = none) :
    ∀ n ∈ (start text c).nests.1, n.Plain := by
  obtain ⟨ps, xs, hs, hl, hn, hc⟩ := yields_nests h rfl
  intro n hmem
  obtain ⟨us, vs, he⟩ := List.append_of_mem hmem
  rw [he] at hn hc
  rw [Nest.flattenAll_append] at hn
  obtain ⟨ys, zs, rfl, -, hz⟩ := List.map_eq_append_iff.1 hn
  obtain ⟨zs, ws, rfl, hz, -⟩ := List.map_eq_append_iff.1 hz
  have hcov : (start text c).Covers (ys ++ (zs ++ ws)) (start text c).nests.2
    (start text c).run.2 := ⟨ps, hs, hl⟩
  obtain ⟨mid, -, hcov⟩ := hcov.split
  obtain ⟨last, hcov, -⟩ := hcov.split
  exact hcov.plain (Nest.closedAll_append.1 hc).2.1 hz

end Lexer

end MakeTree
