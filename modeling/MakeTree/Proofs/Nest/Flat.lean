import MakeTree.Nest.Layout
import MakeTree.Proofs.Lexer.Run

/-!
The flat nests of a text, read off the pieces it is cut into (`flatNests_eq`). Lexemes hold all
text (`lexemes_text`), and where the lexemes come apart, so do the pieces (`lexemes_split`).
-/

namespace MakeTree

def Trivia.text : Trivia → Text
  | continuation t => t
  | skipped c => [c]

def Trivia.textOf (ts : List Trivia) : Text := ts.flatMap text

namespace Lexeme

def text (x : Lexeme) : Text := Trivia.textOf x.leading ++ x.token.text

def textOf (xs : List Lexeme) : Text := xs.flatMap text

end Lexeme

/-- The nest of one token. -/
def Nest.ofLexeme (x : Lexeme) : Nest :=
  if x.token.kind = .stringLiteral then
    if x.token.inside.unclosed?.isSome then .raw x
    else .quoted x x.token.inside.nests.1 x.token.inside.nests.2
  else .leaf x

@[simp] theorem Nest.first_ofLexeme (x : Lexeme) : (ofLexeme x).first = x := by
  unfold ofLexeme
  split
  · split <;> rfl
  · rfl

namespace Piece

/-- The lexemes of some pieces after what was passed over in front of them, and what is passed
over behind the last. -/
def lexemes (leading : List Trivia) : List Piece → List Lexeme × List Trivia
  | [] => ([], leading)
  | continuation t :: ps => lexemes (leading ++ [.continuation t]) ps
  | illegal _ c :: ps => lexemes (leading ++ [.skipped c]) ps
  | token t _ :: ps =>
    let after := lexemes [] ps
    (⟨leading, t⟩ :: after.1, after.2)

theorem lexemes_append (leading : List Trivia) (ps qs : List Piece) :
    lexemes leading (ps ++ qs) = ((lexemes leading ps).1 ++ (lexemes (lexemes leading ps).2 qs).1,
      (lexemes (lexemes leading ps).2 qs).2) := by
  fun_induction lexemes leading ps with
  | case1 => rfl
  | case2 leading t ps ih => exact ih
  | case3 leading q c ps ih => exact ih
  | case4 leading t change ps after ih =>
    rw [List.cons_append, lexemes, ih]
    rfl

theorem lexemes_text (leading : List Trivia) (ps : List Piece) :
    Lexeme.textOf (lexemes leading ps).1 ++ Trivia.textOf (lexemes leading ps).2 =
      Trivia.textOf leading ++ ps.flatMap text := by
  fun_induction lexemes leading ps with
  | case1 leading => simp [Lexeme.textOf]
  | case2 leading t ps ih =>
    rw [ih]
    simp [Trivia.textOf, Trivia.text, text]
  | case3 leading q c ps ih =>
    rw [ih]
    simp [Trivia.textOf, Trivia.text, text]
  | case4 leading t change ps after ih =>
    have ih : Lexeme.textOf after.1 ++ Trivia.textOf after.2 = ps.flatMap text := ih
    simp only [Lexeme.textOf, Lexeme.text, List.flatMap_cons, List.append_assoc, text] at ih ⊢
    rw [ih]

theorem lexemes_token (leading : List Trivia) (ps : List Piece) :
    (lexemes leading ps).1.map Lexeme.token = ps.filterMap token? := by
  fun_induction lexemes leading ps with
  | case1 => rfl
  | case2 leading t ps ih => exact ih
  | case3 leading q c ps ih => exact ih
  | case4 leading t change ps after ih => simp [token?, ← ih, after]

theorem lexemes_eq_nil {leading : List Trivia} {ps : List Piece}
    (h : lexemes leading ps = ([], [])) : leading = [] ∧ ps = [] := by
  induction leading, ps using lexemes.induct with
  | case1 leading => exact ⟨(Prod.mk.inj h).2, rfl⟩
  | case2 leading t ps ih => simpa using (ih h).1
  | case3 leading q c ps ih => simpa using (ih h).1
  | case4 leading t change ps ih => cases (Prod.mk.inj h).1

/-- A cut behind a lexeme is a cut behind its token. -/
theorem lexemes_split {leading : List Trivia} {ps : List Piece} {xs ys : List Lexeme}
    (h : (lexemes leading ps).1 = xs ++ ys) (hx : xs ≠ []) :
    ∃ qs rs t change, ps = qs ++ rs ∧ lexemes leading qs = (xs, []) ∧
      qs.getLast? = some (.token t change) ∧ xs.getLast?.map Lexeme.token = some t := by
  induction leading, ps using lexemes.induct generalizing xs with
  | case1 leading => exact absurd (List.append_eq_nil_iff.1 h.symm).1 hx
  | case2 leading s ps ih =>
    obtain ⟨qs, rs, t, change, rfl, hl, hq, ht⟩ := ih h hx
    exact ⟨continuation s :: qs, rs, t, change, rfl, hl, by simp [List.getLast?_cons, hq], ht⟩
  | case3 leading q c ps ih =>
    obtain ⟨qs, rs, t, change, rfl, hl, hq, ht⟩ := ih h hx
    exact ⟨illegal q c :: qs, rs, t, change, rfl, hl, by simp [List.getLast?_cons, hq], ht⟩
  | case4 leading t change ps ih =>
    cases xs with
    | nil => exact absurd rfl hx
    | cons x xs =>
      obtain ⟨rfl, hys⟩ := List.cons.inj h
      by_cases hxs : xs = []
      · subst hxs
        exact ⟨[token t change], ps, t, change, rfl, rfl, rfl, rfl⟩
      · obtain ⟨qs, rs, t', change', rfl, hl, hq, ht⟩ := ih hys hxs
        refine ⟨token t change :: qs, rs, t', change', rfl, ?_, ?_, ?_⟩
        · rw [lexemes, hl]
        · simp [List.getLast?_cons, hq]
        · obtain ⟨y, hy, rfl⟩ := Option.map_eq_some_iff.1 ht
          simp [List.getLast?_cons, hy]

end Piece

namespace Lexer

theorem flatNests_eq (lx : Lexer) (leading : List Trivia) :
    lx.flatNests leading = ((Piece.lexemes leading lx.run.1).1.map Nest.ofLexeme,
      (Piece.lexemes leading lx.run.1).2) := by
  fun_induction flatNests lx leading with
  | case1 lx leading h =>
    rw [run_of_rest (step_eq_none.1 h)]
    rfl
  | case2 lx leading t next h ih =>
    rw [ih, (Steps.cons h (.nil _)).run]
    rfl
  | case3 lx leading q c next h ih =>
    rw [ih, (Steps.cons h (.nil _)).run]
    rfl
  | case4 lx leading t change next h x after n ih _ =>
    simp only [after, ih, (Steps.cons h (.nil _)).run]
    rfl

/-- The lexemes of a text, and what is passed over behind the last. -/
def lexemes (lx : Lexer) : List Lexeme × List Trivia := Piece.lexemes [] lx.run.1

theorem nests_eq (lx : Lexer) :
    lx.nests = (Nest.gather (lx.lexemes.1.map Nest.ofLexeme), lx.lexemes.2) := by
  rw [nests, flatNests_eq]
  rfl

theorem lexemes_text (lx : Lexer) :
    Lexeme.textOf lx.lexemes.1 ++ Trivia.textOf lx.lexemes.2 = lx.rest := by
  rw [lexemes, Piece.lexemes_text, run_text]
  rfl

end Lexer

end MakeTree
