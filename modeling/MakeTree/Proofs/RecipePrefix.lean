import Mathlib
import MakeTree.Proofs.LineEndings
import MakeTree.Proofs.Lexer.Prefix

/-!
A text with another recipe prefix (`parse_withPrefix`). With a character in place of the recipe
prefix that no other line starts with, whatever else that character means in a makefile, a text is
parsed into the same tree, but for the prefix itself, or refused for the same reason at the same
line and column.
-/

namespace MakeTree

/-- The tree with `q` for its recipe prefixes. -/
def Tree.withPrefix (q : Char) : Tree → Tree :=
  mapTexts fun k s => if k = .token .recipePrefix then [q] else s

namespace LexError

def shown : LexError → LexError
  | illegalCharacter p c => illegalCharacter p.shown c
  | unterminated f => unterminated f.shown

end LexError

namespace ParseError

def shown : ParseError → ParseError
  | unexpectedToken t expected => unexpectedToken t.shown expected
  | unexpectedEnd expected => unexpectedEnd expected

/-- The error with `q` for the token that was found, if that is a recipe prefix. -/
def withPrefix (q : Char) : ParseError → ParseError
  | unexpectedToken t expected => unexpectedToken (t.withPrefix q) expected
  | unexpectedEnd expected => unexpectedEnd expected

end ParseError

namespace Error

/-- What is displayed of an error. -/
def shown : Error → Error
  | notUtf8 => notUtf8
  | lex e => lex e.shown
  | parse e => parse e.shown

def withPrefix (q : Char) : Error → Error
  | notUtf8 => notUtf8
  | lex e => lex e
  | parse e => parse (e.withPrefix q)

end Error

namespace Likeness

variable (q : Char)

/-- The same but for recipe prefixes and offsets. -/
def withPrefix : Likeness where
  position p p' := p'.shown = p.shown
  token t u := u.shown = (t.withPrefix q).shown
  trivia us vs := vs.map Trivia.tree = us.map Trivia.tree
  forest ts us := us = Tree.mapTextsOf
    (fun k s => if k = .token .recipePrefix then [q] else s) ts
  kind h := (Token.shown_eq h).1
  text := by
    intro t u h hk
    have ht := (Token.shown_eq h).2.1
    have hp : t.kind ≠ .recipePrefix := by rcases hk with h | h | h <;> rw [h] <;> decide
    rw [ht, Token.withPrefix, if_neg hp]
  trivia_nil := rfl
  skipped _ := rfl
  trivia_append h h' := by rw [List.map_append, List.map_append, h, h']
  append h h' := by rw [h, h', Tree.mapTextsOf_append]
  node k h := by rw [h]; rfl
  passed := by
    intro us vs h
    rw [h]
    clear h
    induction us with
    | nil => rfl
    | cons u us ih =>
      rw [List.map_cons, Tree.mapTextsOf, ← ih]
      cases u <;> rfl
  leaf := by
    intro t u h
    obtain ⟨hk, ht, -⟩ := Token.shown_eq h
    simp [Tree.mapTextsOf_leaf, hk, ht, Token.withPrefix]
  quote _ := by simp [Tree.mapTextsOf_leaf]
  plain _ := by simp [Tree.mapTextsOf_leaf]

variable {q}

theorem Frames.of_shown {f g : Frame} (h : g.shown = f.shown) : (withPrefix q).Frames f g := by
  obtain ⟨hk, hp⟩ : g.kind = f.kind ∧ g.position.shown = f.position.shown := by
    simpa [Frame.shown] using h
  exact ⟨hk, hp⟩

theorem lockstep_withPrefix (hq : q ≠ '\n' ∧ q ≠ '\r' ∧ q ≠ '\\') :
    (withPrefix q).Lockstep (Lexer.Mirrors q) where
  rest h hr := by rw [h.rest, Lexer.textWithPrefix_of_rest hr]
  frames := by
    intro lx ly h
    have hf := h.frames
    generalize lx.frames = fs at hf ⊢
    generalize ly.frames = gs at hf ⊢
    cases fs with
    | nil =>
      rw [List.map_eq_nil_iff.1 hf]
      exact .none
    | cons f fs =>
      cases gs with
      | nil => cases hf
      | cons g gs => exact .some (.of_shown (List.cons.inj hf).1)
  step := by
    intro lx ly p next h hs
    obtain ⟨p', next', hs', hp, hn⟩ := h.step hq hs
    refine ⟨p', next', hs', ?_, hn⟩
    cases p with
    | token t change =>
      cases p' with
      | token u change' =>
        obtain ⟨hu, rfl⟩ := Piece.token.inj hp
        refine .token hu fun hk => ?_
        have hr : t.kind ≠ .recipePrefix := by rw [hk]; decide
        have hl : t.kind ≠ .lineBreak := by rw [hk]; decide
        rw [Token.withPrefix, if_neg hr] at hu
        exact .inside hq.1 hu (Lexer.step_ne_break hs hl)
      | continuation s => cases hp
      | illegal r c => cases hp
    | continuation s =>
      cases p' with
      | token u change' => cases hp
      | continuation s' =>
        obtain rfl := Piece.continuation.inj hp
        exact .continuation rfl
      | illegal r c => cases hp
    | illegal r c =>
      cases p' with
      | token u change' => cases hp
      | continuation s' => cases hp
      | illegal r' c' =>
        obtain ⟨hr, rfl⟩ := Piece.illegal.inj hp
        exact .illegal c' hr

theorem Errors.shown_eq {e e' : LexError} (h : (withPrefix q).Errors e e') :
    e'.shown = e.shown := by
  cases h with
  | illegal c h => rw [LexError.shown, show _ = _ from h]; rfl
  | unterminated h =>
    have hk := h.kind
    have hp : _ = _ := h.position
    simp [LexError.shown, Frame.shown, hk, hp]

end Likeness

theorem ParseError.Corresponds.shown_eq {q : Char} {e e' : ParseError}
    (h : e.Corresponds (.withPrefix q) e') : e'.shown = (e.withPrefix q).shown := by
  cases h with
  | token h expected => rw [ParseError.shown, show _ = _ from h]; rfl
  | atEnd expected => rfl

/-- A text comes to the same with another recipe prefix. -/
theorem parse_withPrefix (text : Text) (options : Options) {q : Char}
    (hq : q ≠ '\n' ∧ q ≠ '\r' ∧ q ≠ '\\')
    (hl : q = options.recipePrefix ∨ q ∉ (Lexer.start text options.recipePrefix).lineHeads) :
    match (parse text options).result with
    | .ok t =>
      (parse ((Lexer.start text options.recipePrefix).textWithPrefix q)
        { options with recipePrefix := q }).result = .ok (t.withPrefix q)
    | .error e => ∃ e',
      (parse ((Lexer.start text options.recipePrefix).textWithPrefix q)
        { options with recipePrefix := q }).result = .error e' ∧
        e'.shown = (e.withPrefix q).shown := by
  have hm : Lexer.Mirrors q (Lexer.start text options.recipePrefix)
      (Lexer.start ((Lexer.start text options.recipePrefix).textWithPrefix q) q) :=
    ⟨rfl, rfl, rfl, rfl, rfl, .inl ⟨rfl, hl⟩⟩
  obtain ⟨hp, hu, -⟩ := (Likeness.lockstep_withPrefix hq).pieces hm
  have hblank {us vs : List Trivia} (h : (Likeness.withPrefix q).trivia us vs) :
      vs.isEmpty = us.isEmpty := by
    have hl := congrArg List.isEmpty h
    rwa [List.isEmpty_map, List.isEmpty_map] at hl
  have hr := Lexer.results hp hu (fun _ => Lexer.lines_of_pieces hblank hp) options.strict
  rw [parse_result_start, parse_result_start]
  generalize (Lexer.start text options.recipePrefix).result options.strict = r at hr ⊢
  simp only
  generalize (Lexer.start _ q).result options.strict = r' at hr ⊢
  cases hr with
  | tree h => rw [show _ = _ from h]; rfl
  | lex h => exact ⟨_, rfl, congrArg Error.lex h.shown_eq⟩
  | parse h => exact ⟨_, rfl, congrArg Error.parse h.shown_eq⟩

/-- A recipe behind what is otherwise the start of a comment, and one without a rule. -/
theorem parse_withPrefix_hash :
    '#' ∉ (Lexer.start "a:\n\tb\n".toList '\t').lineHeads ∧
    (parse "a:\n#b\n".toList ⟨'#', false⟩).result = .ok (.node .root [.node .rule [
      .node .targets [.node .expression [.leaf (.token .plainText) ['a']]],
      .leaf (.token .colon) [':'], .leaf (.token .lineBreak) ['\n'],
      .node .recipe [.leaf (.token .recipePrefix) ['#'],
        .node .expression [.leaf (.token .plainText) ['b']],
        .leaf (.token .lineBreak) ['\n']]]]) ∧
    '#' ∉ (Lexer.start "\tb\n".toList '\t').lineHeads ∧
    ∃ e, (parse "#b\n".toList ⟨'#', false⟩).result = .error e ∧
      e.shown = .parse (.unexpectedToken ⟨.plainText, ['b'], ⟨1, 2, 0⟩⟩
        [.token .colon, .token .assignOp]) := by
  have hrule : '#' ∉ (Lexer.start "a:\n\tb\n".toList '\t').lineHeads := by
    rw [show (Lexer.start "a:\n\tb\n".toList '\t').lineHeads = ['a', '\t'] by cbv]
    decide
  have hline : '#' ∉ (Lexer.start "\tb\n".toList '\t').lineHeads := by
    rw [show (Lexer.start "\tb\n".toList '\t').lineHeads = ['\t'] by cbv]
    decide
  have h := parse_withPrefix "a:\n\tb\n".toList {} (by decide) (.inr hrule)
  have h' := parse_withPrefix "\tb\n".toList {} (by decide) (.inr hline)
  have hr : (parse "a:\n\tb\n".toList {}).result = .ok (.node .root [.node .rule [
      .node .targets [.node .expression [.leaf (.token .plainText) ['a']]],
      .leaf (.token .colon) [':'], .leaf (.token .lineBreak) ['\n'],
      .node .recipe [.leaf (.token .recipePrefix) ['\t'],
        .node .expression [.leaf (.token .plainText) ['b']],
        .leaf (.token .lineBreak) ['\n']]]]) := by cbv
  have hr' : (parse "\tb\n".toList {}).result = .error (.parse (.unexpectedToken
      ⟨.plainText, ['b'], ⟨1, 2, 1⟩⟩ [.token .colon, .token .assignOp])) := by cbv
  have ht : (Lexer.start "a:\n\tb\n".toList '\t').textWithPrefix '#' = "a:\n#b\n".toList := by
    cbv
  have ht' : (Lexer.start "\tb\n".toList '\t').textWithPrefix '#' = "#b\n".toList := by cbv
  rw [hr, ht] at h
  rw [hr', ht'] at h'
  exact ⟨hrule, h, hline, h'⟩

end MakeTree
