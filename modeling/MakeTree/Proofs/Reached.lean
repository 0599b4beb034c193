import MakeTree.Proofs.Grammar.Faults
import MakeTree.Proofs.StatementRows

/-!
What the parser of a text comes to. A text is refused with what a task fails with that the parser
comes to (`Lexer.Reaches.result`), and where it is refused, the parser has come to a task that fails
by itself (`Lexer.raises_of_result`).
-/

namespace MakeTree

namespace Parser

theorem Reaches.enclosed {file : List Line} {task task' : Task} {lines lines' : List Line}
    (hl : Line.Lexed file) (h : Reaches task lines task' lines') (ho : task.On file lines)
    (he : task.Enclosed lines) : task'.Enclosed lines' := by
  induction h with
  | refl => exact he
  | tail h hc ih => exact hc.enclosed hl (h.on ho) ih

theorem Reaches.inRecipe {task task' : Task} {lines lines' : List Line}
    (h : Reaches task lines task' lines') (hr : task.InRecipe) : task'.InRecipe := by
  induction h with
  | refl => exact hr
  | tail _ hc ih => exact hc.inRecipe ih

theorem fault_of_fails {file : List Line} {task : Task} {lines : List Line} {e : ParseError}
    (hl : Line.Lexed file) (ho : task.On file lines) (hr : task.InRecipe)
    (he : task.Enclosed lines) (h : task.Fails lines e) : Fault e := by
  obtain ⟨task', lines', hreach, hraise⟩ := raises_of_fails (hl.cut.good hl.closed) ho h
  exact hraise.fault hl (hreach.on ho) (hreach.inRecipe hr) (hreach.enclosed hl ho he)

end Parser

namespace Lexer

open MakeTree.Parser

/-- The parser of the text comes to the task in front of the lines. -/
def Reaches (lx : Lexer) (task : Task) (lines : List Line) : Prop :=
  Parser.Reaches .file lx.lines task lines

variable {text : Text} {c : Char} {strict : Bool} {task : Task} {lines : List Line} {e : ParseError}

theorem result_eq_parse_error {lx : Lexer} : lx.result strict = .error (.parse e) ↔
    lx.refusal strict = none ∧ Task.file.Fails lx.lines e := by
  constructor
  · intro h
    rw [result] at h
    cases hr : lx.refusal strict with
    | some le =>
      rw [hr] at h
      cases h
    | none =>
      rw [hr, parse_result_eq] at h
      refine ⟨rfl, ?_⟩
      cases hs : statements lx.lines ⟨[], [], []⟩ with
      | ok a s =>
        rw [hs] at h
        cases h
      | error e' s =>
        rw [hs] at h
        cases h
        exact fails_of_error (sim_statements (Likeness.same_lines lx.lines)) hs
  · rintro ⟨hr, hf⟩
    obtain ⟨s, hs⟩ := hf [] []
    rw [result, hr, parse_result_eq, hs]

theorem Reaches.result {lx : Lexer} (h : lx.Reaches task lines) (hr : lx.refusal strict = none)
    (hf : task.Fails lines e) : lx.result strict = .error (.parse e) :=
  result_eq_parse_error.2 ⟨hr, h.fails hf⟩

theorem Reaches.on {lx : Lexer} (h : lx.Reaches task lines) : task.On lx.lines lines :=
  Parser.Reaches.on h (List.suffix_refl _)

theorem Reaches.seen (hu : (start text c).unclosed? = none)
    (h : (start text c).Reaches task lines) : task.Enclosed lines :=
  Parser.Reaches.enclosed (lexed_lines hu) h (List.suffix_refl _) trivial

/-- Where a text is refused, the parser has come to a task that fails by itself. -/
theorem raises_of_result (h : (start text c).result strict = .error (.parse e)) :
    ∃ task lines, (start text c).Reaches task lines ∧ Raises task lines e := by
  obtain ⟨hr, hf⟩ := result_eq_parse_error.1 h
  exact raises_of_fails (goodLines (refusal_eq_none.1 hr).2) (List.suffix_refl _) hf

/-- No text is refused for the lack of what was looked for before, but for an assignment operator
behind specifiers. -/
theorem unforeseen_of_result (h : (start text c).result strict = .error (.parse e)) :
    e.Unforeseen ∨ ∃ line lines, (start text c).Reaches (.statement line) lines ∧
      e.expected = [.token .assignOp] ∧ line.LacksOperator := by
  obtain ⟨task, lines, hreach, hraise⟩ := raises_of_result h
  have hu := (refusal_eq_none.1 (result_eq_parse_error.1 h).1).2
  obtain hun | ⟨line, rfl, he⟩ := hraise.unforeseen (lexed_lines hu) hreach.on (hreach.seen hu)
  · exact .inl hun
  · exact .inr ⟨line, lines, hreach, he⟩

end Lexer

end MakeTree
