import MakeTree.Proofs.Lexer.Iteration
import MakeTree.Proofs.Nest.Flat
import MakeTree.Proofs.Nest.Likeness

/-!
Texts that are cut into pieces that are alike. Lexers in step cut such pieces (`Lockstep.pieces`);
the nests of the texts are then alike (`Pieces.nests`), and so is what stands in the way of parsing
them (`Pieces.refusal`). In the second text a continuation may stand where the first has none.
-/

namespace MakeTree

namespace Likeness

variable (ρ : Likeness)

structure Frames (f g : Frame) : Prop where
  kind : g.kind = f.kind
  position : ρ.position f.position g.position

/-- The same error at positions that are alike. -/
inductive Errors : LexError → LexError → Prop
  | illegal {p q : Position} (c : Char) (h : ρ.position p q) :
      Errors (.illegalCharacter p c) (.illegalCharacter q c)
  | unterminated {f g : Frame} (h : ρ.Frames f g) : Errors (.unterminated f) (.unterminated g)

inductive Items : Item → Item → Prop
  | token {t u : Token} (h : ρ.token t u) : Items (.ok t) (.ok u)
  | error {e e' : LexError} (h : ρ.Errors e e') : Items (.error e) (.error e')

/-- Pieces that are alike, and so are those inside their literals. -/
inductive Pieces : List Piece → List Piece → Prop
  | nil : Pieces [] []
  | token {t u : Token} {ch : FrameChange} {ps qs : List Piece} (h : ρ.token t u)
      (hk : t.kind ≠ .stringLiteral) (hs : Pieces ps qs) :
      Pieces (.token t ch :: ps) (.token u ch :: qs)
  | literal {t u : Token} {ch : FrameChange} {ps qs : List Piece} (h : ρ.token t u)
      (hk : t.kind = .stringLiteral) (hi : Pieces t.inside.run.1 u.inside.run.1)
      (hu : Option.Rel ρ.Frames t.inside.unclosed? u.inside.unclosed?) (hs : Pieces ps qs) :
      Pieces (.token t ch :: ps) (.token u ch :: qs)
  | continuation {s s' : Text} {ps qs : List Piece}
      (h : ρ.trivia [.continuation s] [.continuation s']) (hs : Pieces ps qs) :
      Pieces (.continuation s :: ps) (.continuation s' :: qs)
  | continued {s : Text} {ps qs : List Piece} (h : ρ.trivia [] [.continuation s])
      (hs : Pieces ps qs) : Pieces ps (.continuation s :: qs)
  | illegal {p q : Position} (c : Char) {ps qs : List Piece} (h : ρ.position p q)
      (hs : Pieces ps qs) : Pieces (.illegal p c :: ps) (.illegal q c :: qs)

/-- What one step cuts off, where `R` relates the lexers inside literals. -/
inductive Cut (R : Lexer → Lexer → Prop) : Piece → Piece → Prop
  | token {t u : Token} {ch : FrameChange} (h : ρ.token t u)
      (hi : t.kind = .stringLiteral → R t.inside u.inside) : Cut R (.token t ch) (.token u ch)
  | continuation {s s' : Text} (h : ρ.trivia [.continuation s] [.continuation s']) :
      Cut R (.continuation s) (.continuation s')
  | illegal {p q : Position} (c : Char) (h : ρ.position p q) : Cut R (.illegal p c) (.illegal q c)

/-- Lexers that `R` relates go through their texts in step. -/
structure Lockstep (R : Lexer → Lexer → Prop) : Prop where
  rest : ∀ {lx ly}, R lx ly → lx.rest = [] → ly.rest = []
  frames : ∀ {lx ly}, R lx ly → Option.Rel ρ.Frames lx.frames.head? ly.frames.head?
  step : ∀ {lx ly p next}, R lx ly → lx.step = some (p, next) →
    ∃ q next', ly.step = some (q, next') ∧ ρ.Cut R p q ∧ R next next'

variable {ρ}

theorem Lockstep.cuts {R : Lexer → Lexer → Prop} (hR : ρ.Lockstep R) {lx ly last : Lexer}
    {ps : List Piece} (hs : lx.Steps ps last) (hr : last.rest = []) (h : R lx ly) :
    List.Forall₂ (ρ.Cut R) ps ly.run.1 := by
  induction hs generalizing ly with
  | nil lx =>
    rw [Lexer.run_of_rest (hR.rest h hr)]
    exact .nil
  | cons hs _ ih =>
    obtain ⟨q, next', hs', hc, hnext⟩ := hR.step h hs
    rw [(Lexer.Steps.cons hs' (.nil _)).run]
    exact .cons hc (ih hr hnext)

/-- Lexers in step cut off pieces that are alike and have frames that are alike open at the end. -/
theorem Lockstep.pieces {R : Lexer → Lexer → Prop} (hR : ρ.Lockstep R) {lx ly : Lexer}
    (h : R lx ly) : ρ.Pieces lx.run.1 ly.run.1 ∧
      Option.Rel ρ.Frames lx.unclosed? ly.unclosed? ∧ R lx.run.2 ly.run.2 := by
  induction hn : lx.rest.length using Nat.strong_induction_on generalizing lx ly with
  | _ n ih =>
    cases hs : lx.step with
    | none =>
      have hr := Lexer.step_eq_none.1 hs
      have hr' := hR.rest h hr
      rw [Lexer.unclosed?, Lexer.unclosed?, Lexer.run_of_rest hr, Lexer.run_of_rest hr']
      exact ⟨.nil, hR.frames h, h⟩
    | some r =>
      obtain ⟨p, next⟩ := r
      obtain ⟨q, next', hs', hc, hnext⟩ := hR.step h hs
      have hp := ih _ (hn ▸ Lexer.step_lt hs) hnext rfl
      have hrun := (Lexer.Steps.cons hs (.nil _)).run
      have hrun' := (Lexer.Steps.cons hs' (.nil _)).run
      rw [Lexer.unclosed?, Lexer.unclosed?, hrun, hrun']
      refine ⟨?_, hp.2⟩
      cases hc with
      | @token t u ch ht hi =>
        by_cases hk : t.kind = .stringLiteral
        · have hin := ih _ (hn ▸ Lexer.inside_lt hs) (hi hk) rfl
          exact .literal ht hk hin.1 hin.2.1 hp.1
        · exact .token ht hk hp.1
      | continuation hv => exact .continuation hv hp.1
      | illegal c hq => exact .illegal c hq hp.1

section Nest

theorem pair {ns ms : List Nest} (h : ρ.Nests ns ms) :
    ρ.Nests (Nest.pair ns).1 (Nest.pair ms).1 ∧
      List.Forall₂ (fun c d => ρ.Lex c.1 d.1 ∧ ρ.Nests c.2 d.2) (Nest.pair ns).2
        (Nest.pair ms).2 := by
  induction h with
  | nil => exact ⟨.nil, .nil⟩
  | @cons n m ns ms hn _ ih =>
    obtain ⟨hi, hc⟩ := ih
    rw [Nest.pair, Nest.pair, hn.kind]
    generalize Nest.pair ns = r at hi hc ⊢
    generalize Nest.pair ms = r' at hi hc ⊢
    obtain ⟨inner, closers⟩ := r
    obtain ⟨inner', closers'⟩ := r'
    simp only at hi hc ⊢
    split
    · exact ⟨.nil, .cons ⟨hn.first, hi⟩ hc⟩
    · cases hc with
      | nil => exact ⟨.cons hn hi, .nil⟩
      | cons hd hc => exact ⟨.cons (.expansion hn.first hi hd.1) hd.2, hc⟩
    · exact ⟨.cons hn hi, hc⟩

theorem gather {ns ms : List Nest} (h : ρ.Nests ns ms) :
    ρ.Nests (Nest.gather ns) (Nest.gather ms) := by
  obtain ⟨hi, hc⟩ := pair h
  refine List.rel_append hi ?_
  generalize (Nest.pair ns).2 = closers at hc ⊢
  generalize (Nest.pair ms).2 = closers' at hc ⊢
  induction hc with
  | nil => exact .nil
  | cons hd _ ih => exact List.rel_append (.cons (.leaf hd.1) hd.2) ih

end Nest

namespace Pieces

variable {ps qs : List Piece}

theorem append {ps' qs' : List Piece} (h : ρ.Pieces ps qs) (h' : ρ.Pieces ps' qs') :
    ρ.Pieces (ps ++ ps') (qs ++ qs') := by
  induction h with
  | nil => exact h'
  | token h hk _ ih => exact .token h hk ih
  | literal h hk hi hu _ _ ih => exact .literal h hk hi hu ih
  | continuation h _ ih => exact .continuation h ih
  | continued h _ ih => exact .continued h ih
  | illegal c h _ ih => exact .illegal c h ih

theorem lexemes (h : ρ.Pieces ps qs) {us vs : List Trivia} (hv : ρ.trivia us vs) :
    ρ.Nests ((Piece.lexemes us ps).1.map Nest.ofLexeme) ((Piece.lexemes vs qs).1.map Nest.ofLexeme) ∧
      ρ.trivia (Piece.lexemes us ps).2 (Piece.lexemes vs qs).2 := by
  induction h generalizing us vs with
  | nil => exact ⟨.nil, hv⟩
  | @token t u ch ps qs h hk _ ih =>
    obtain ⟨hn, ht⟩ := ih ρ.trivia_nil
    refine ⟨.cons ?_ hn, ht⟩
    have hk' : u.kind ≠ .stringLiteral := ρ.kind h ▸ hk
    rw [Nest.ofLexeme, Nest.ofLexeme, if_neg hk, if_neg hk']
    exact .leaf ⟨hv, h⟩
  | @literal t u ch ps qs h hk _ hu _ ihi ih =>
    obtain ⟨hn, ht⟩ := ih ρ.trivia_nil
    refine ⟨.cons ?_ hn, ht⟩
    have hk' : u.kind = .stringLiteral := (ρ.kind h).trans hk
    have htext := ρ.text h (.inr (.inr hk))
    obtain ⟨hin, hv'⟩ := ihi ρ.trivia_nil
    rw [Nest.ofLexeme, Nest.ofLexeme, if_pos hk, if_pos hk', Lexer.nests_eq, Lexer.nests_eq]
    have hs : u.inside.unclosed?.isSome = t.inside.unclosed?.isSome := by
      generalize t.inside.unclosed? = o at hu ⊢
      generalize u.inside.unclosed? = o' at hu ⊢
      cases hu <;> rfl
    simp only [hs]
    split
    · exact .raw ⟨hv, h⟩ htext
    · exact .quoted ⟨hv, h⟩ htext (gather hin) hv'
  | continuation h _ ih => exact ih (ρ.trivia_append hv h)
  | @continued s ps qs h _ ih =>
    have h' := ρ.trivia_append hv h
    rw [List.append_nil] at h'
    exact ih h'
  | illegal c h _ ih => exact ih (ρ.trivia_append hv (ρ.skipped c))

theorem nests {lx ly : Lexer} (h : ρ.Pieces lx.run.1 ly.run.1) :
    ρ.Nests lx.nests.1 ly.nests.1 ∧ ρ.trivia lx.nests.2 ly.nests.2 := by
  obtain ⟨hn, hv⟩ := h.lexemes ρ.trivia_nil
  rw [Lexer.nests_eq, Lexer.nests_eq]
  exact ⟨gather hn, hv⟩

theorem items (h : ρ.Pieces ps qs) :
    List.Forall₂ ρ.Items (ps.filterMap Piece.item?) (qs.filterMap Piece.item?) := by
  induction h with
  | nil => exact .nil
  | token h _ _ ih => exact .cons (.token h) ih
  | literal h _ _ _ _ _ ih => exact .cons (.token h) ih
  | continuation _ _ ih => exact ih
  | continued _ _ ih => exact ih
  | illegal c h _ ih => exact .cons (.error (.illegal c h)) ih

theorem yielded {lx ly : Lexer} (h : ρ.Pieces lx.run.1 ly.run.1)
    (hu : Option.Rel ρ.Frames lx.unclosed? ly.unclosed?) (hf : lx.finished = ly.finished) :
    List.Forall₂ ρ.Items lx.yielded ly.yielded := by
  have hx : lx.run.2.finished = ly.run.2.finished := by
    rw [lx.steps_run.finished, ly.steps_run.finished, hf]
  rw [Lexer.yielded_eq, Lexer.yielded_eq, Lexer.ending?, Lexer.ending?, hx]
  refine List.rel_append h.items ?_
  split
  · exact .nil
  · rw [Lexer.unclosed?, Lexer.unclosed?] at hu
    generalize lx.run.2.frames.head? = o at hu ⊢
    generalize ly.run.2.frames.head? = o' at hu ⊢
    cases hu with
    | none => exact .nil
    | some h => exact .cons (.error (.unterminated h)) .nil

theorem hidden (h : ρ.Pieces ps qs) :
    Option.Rel ρ.Errors (ps.findSome? Piece.hidden?) (qs.findSome? Piece.hidden?) := by
  induction h with
  | nil => exact .none
  | @token t u ch ps qs h hk _ ih =>
    have hk' : u.kind ≠ .stringLiteral := ρ.kind h ▸ hk
    rw [List.findSome?_cons, List.findSome?_cons, Piece.hidden?, Piece.hidden?, if_neg hk, if_neg hk']
    exact ih
  | @literal t u ch ps qs h hk _ hu _ ihi ih =>
    have hk' : u.kind = .stringLiteral := (ρ.kind h).trans hk
    rw [List.findSome?_cons, List.findSome?_cons, Piece.hidden?, Piece.hidden?, if_pos hk, if_pos hk',
      Lexer.search_eq, Lexer.search_eq]
    generalize t.inside.run.1.findSome? Piece.hidden? = o at ihi ⊢
    generalize u.inside.run.1.findSome? Piece.hidden? = o' at ihi ⊢
    cases ihi with
    | none => exact ih
    | some he => exact .some he
  | continuation _ _ ih => exact ih
  | continued _ _ ih => exact ih
  | illegal c h _ _ => exact .some (.illegal c h)

theorem refusal {lx ly : Lexer} (h : ρ.Pieces lx.run.1 ly.run.1)
    (hu : Option.Rel ρ.Frames lx.unclosed? ly.unclosed?) (strict : Bool) :
    Option.Rel ρ.Errors (lx.refusal strict) (ly.refusal strict) := by
  have hf : Option.Rel ρ.Errors (lx.unclosed?.map .unterminated) (ly.unclosed?.map .unterminated) := by
    generalize lx.unclosed? = o at hu ⊢
    generalize ly.unclosed? = o' at hu ⊢
    cases hu with
    | none => exact .none
    | some h => exact .some (.unterminated h)
  rw [Lexer.refusal_eq, Lexer.refusal_eq]
  cases strict with
  | false => exact hf
  | true =>
    have hh := h.hidden
    simp only [if_true]
    generalize lx.run.1.findSome? Piece.hidden? = o at hh ⊢
    generalize ly.run.1.findSome? Piece.hidden? = o' at hh ⊢
    cases hh with
    | none => exact hf
    | some he => exact .some he

end Pieces

end Likeness

end MakeTree
