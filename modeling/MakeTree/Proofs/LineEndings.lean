import Mathlib
import MakeTree.Proofs.Lexer.Endings
import MakeTree.Proofs.Outcome

/-!
A text with other line endings (`parse_withEnding`). Written with CR LF or CR instead of line feeds,
a text is cut into the same tokens and parsed into the same tree, but for the line breaks themselves
and for the offsets behind them; what stands in the way stands on the same line and column.
-/

namespace MakeTree

def Item.withEnding (e : LineEnding) : Item → Item
  | .ok t => .ok (t.withEnding e)
  | .error x => .error (x.withEnding e)

def Trivia.withEnding (e : LineEnding) : Trivia → Trivia
  | continuation s => continuation (s.withEnding e)
  | skipped c => skipped c

namespace Tree

mutual

/-- The same tree with other texts in its leaves. -/
def mapTexts (f : LeafKind → Text → Text) : Tree → Tree
  | leaf k s => leaf k (f k s)
  | node k ts => node k (mapTextsOf f ts)

def mapTextsOf (f : LeafKind → Text → Text) : List Tree → List Tree
  | [] => []
  | t :: ts => t.mapTexts f :: mapTextsOf f ts

end

theorem mapTextsOf_leaf (f : LeafKind → Text → Text) (k : LeafKind) (s : Text) :
    mapTextsOf f [leaf k s] = [leaf k (f k s)] := rfl

theorem mapTextsOf_append (f : LeafKind → Text → Text) (ts us : List Tree) :
    mapTextsOf f (ts ++ us) = mapTextsOf f ts ++ mapTextsOf f us := by
  induction ts with
  | nil => rfl
  | cons t ts ih => rw [List.cons_append, mapTextsOf, ih, mapTextsOf, List.cons_append]

/-- The tree with another ending in its line breaks and continuations. -/
def withEnding (e : LineEnding) : Tree → Tree :=
  mapTexts fun k s => if k = .token .lineBreak ∨ k = .continuation then s.withEnding e else s

end Tree

def ParseError.withEnding (e : LineEnding) : ParseError → ParseError
  | unexpectedToken t expected => unexpectedToken (t.withEnding e) expected
  | unexpectedEnd expected => unexpectedEnd expected

def Error.withEnding (e : LineEnding) : Error → Error
  | notUtf8 => notUtf8
  | lex x => lex (x.withEnding e)
  | parse x => parse (x.withEnding e)

namespace Likeness

variable (e : LineEnding)

/-- The same but for line breaks and offsets. -/
def withEnding : Likeness where
  position p q := q = p.withEnding e
  token t u := u = t.withEnding e
  trivia us vs := vs = us.map (Trivia.withEnding e)
  forest ts us := us = Tree.mapTextsOf
    (fun k s => if k = .token .lineBreak ∨ k = .continuation then s.withEnding e else s) ts
  kind h := by rw [h]; rfl
  text := by
    rintro t _ rfl hk
    have hb : t.kind ≠ .lineBreak := by rcases hk with h | h | h <;> rw [h] <;> decide
    rw [Token.withEnding, if_neg hb]
  trivia_nil := List.map_nil.symm
  skipped _ := List.map_singleton.symm
  trivia_append h h' := by rw [h, h', List.map_append]
  append h h' := by rw [h, h', Tree.mapTextsOf_append]
  node k h := by rw [h]; rfl
  passed := by
    rintro us _ rfl
    induction us with
    | nil => rfl
    | cons u us ih =>
      rw [List.map_cons, List.map_cons, List.map_cons, Tree.mapTextsOf, ← ih]
      cases u <;> rfl
  leaf := by
    rintro t _ rfl
    simp [Tree.mapTextsOf_leaf, Token.withEnding]
  quote _ := by simp [Tree.mapTextsOf_leaf]
  plain _ := by simp [Tree.mapTextsOf_leaf]

theorem lockstep_withEnding : (withEnding e).Lockstep fun lx ly =>
    ly = lx.withEnding e ∧ 1 ≤ lx.position.line ∧ '\r' ∉ lx.rest where
  rest := by
    rintro lx _ ⟨rfl, -, -⟩ h
    rw [Lexer.withEnding, h]
    rfl
  frames := by
    rintro lx _ ⟨rfl, -, -⟩
    rw [Lexer.withEnding, List.head?_map]
    cases lx.frames.head? with
    | none => exact .none
    | some f => exact .some ⟨rfl, rfl⟩
  step := by
    rintro lx _ p next ⟨rfl, hp, hr⟩ h
    have hnext : 1 ≤ next.position.line := by
      rw [Lexer.step_position h, Position.past_line]
      exact Nat.le_add_right_of_le hp
    have hrest : '\r' ∉ next.rest := fun hm => hr <| by
      rw [← Lexer.step_text h]
      exact List.mem_append_right _ hm
    refine ⟨_, _, Lexer.step_withEnding hp hr h, ?_, rfl, hnext, hrest⟩
    cases p with
    | token t ch =>
      refine .token rfl fun hk => ⟨Lexer.inside_withEnding h hk, ?_, fun hm => hr ?_⟩
      · rw [Token.inside, Lexer.step_token_position h]
        exact hp
      · rw [← Lexer.step_text h]
        exact List.mem_append_left _ (Lexer.inside_subset hm)
    | continuation s => exact .continuation rfl
    | illegal q c => exact .illegal c rfl

variable {e}

theorem Frames.eq_withEnding {f g : Frame} (h : (withEnding e).Frames f g) :
    g = f.withEnding e := by
  have hk : g.kind = f.kind := h.kind
  have hp : g.position = f.position.withEnding e := h.position
  rw [Frame.withEnding, ← hk, ← hp]

theorem Errors.eq_withEnding {x y : LexError} (h : (withEnding e).Errors x y) :
    y = x.withEnding e := by
  cases h with
  | illegal c h => rw [h]; rfl
  | unterminated h => rw [h.eq_withEnding]; rfl

theorem Items.eq_withEnding {i j : Item} (h : (withEnding e).Items i j) : i.withEnding e = j := by
  cases h with
  | token h => rw [h]; rfl
  | error h => rw [h.eq_withEnding]; rfl

end Likeness

theorem ParseError.Corresponds.eq_withEnding {e : LineEnding} {x y : ParseError}
    (h : x.Corresponds (.withEnding e) y) : y = x.withEnding e := by
  cases h with
  | token h expected => rw [h]; rfl
  | atEnd expected => rfl

/-- A text comes to the same with other line endings. -/
theorem parse_withEnding {text : Text} (h : '\r' ∉ text) (e : LineEnding) (options : Options) :
    (Lexer.start (text.withEnding e) options.recipePrefix).yielded =
        (Lexer.start text options.recipePrefix).yielded.map (Item.withEnding e) ∧
      (parse (text.withEnding e) options).result = match (parse text options).result with
        | .ok t => .ok (t.withEnding e)
        | .error x => .error (x.withEnding e) := by
  have hstart : Lexer.start (text.withEnding e) options.recipePrefix =
      (Lexer.start text options.recipePrefix).withEnding e := by
    simp [Lexer.start, Lexer.withEnding, Position.withEnding]
  obtain ⟨hp, hu, -⟩ := (Likeness.lockstep_withEnding e).pieces
    ⟨hstart, Nat.le_refl 1, h⟩
  constructor
  · have hi := (hp.yielded hu rfl).imp fun _ _ => Likeness.Items.eq_withEnding
    rw [← List.forall₂_map_left_iff, List.forall₂_eq_eq_eq] at hi
    exact hi.symm
  · have hblank {us vs : List Trivia} (h : (Likeness.withEnding e).trivia us vs) :
        vs.isEmpty = us.isEmpty := by
      rw [show vs = _ from h, List.isEmpty_map]
    have hr := Lexer.results hp hu (fun _ => Lexer.lines_of_pieces hblank hp) options.strict
    rw [parse_result_start, parse_result_start]
    generalize (Lexer.start text options.recipePrefix).result options.strict = r at hr ⊢
    generalize (Lexer.start (text.withEnding e) options.recipePrefix).result options.strict = r' at hr ⊢
    cases hr with
    | tree h => rw [show _ = _ from h]; rfl
    | lex h => rw [h.eq_withEnding]; rfl
    | parse h => rw [h.eq_withEnding]; rfl

/-- A rule with a continuation, and a line that ends too early. -/
theorem parse_withEnding_crLf :
    '\r' ∉ "a:\\\n\n\tb\n".toList ∧
    (parse "a:\\\r\n\r\n\tb\r\n".toList {}).result = .ok (.node .root [.node .rule [
      .node .targets [.node .expression [.leaf (.token .plainText) ['a']]],
      .leaf (.token .colon) [':'], .leaf .continuation ['\\', '\r', '\n'],
      .leaf (.token .lineBreak) ['\r', '\n'],
      .node .recipe [.leaf (.token .recipePrefix) ['\t'],
        .node .expression [.leaf (.token .plainText) ['b']],
        .leaf (.token .lineBreak) ['\r', '\n']]]]) ∧
    '\r' ∉ "\nifdef\n".toList ∧
    (parse "\r\nifdef\r\n".toList {}).result = .error (.parse (.unexpectedToken
      ⟨.lineBreak, ['\r', '\n'], ⟨2, 6, 7⟩⟩ [.variableName])) := by
  have hrule : '\r' ∉ "a:\\\n\n\tb\n".toList := by decide
  have hline : '\r' ∉ "\nifdef\n".toList := by decide
  have h := (parse_withEnding hrule .crLf {}).2
  have h' := (parse_withEnding hline .crLf {}).2
  have hr : (parse "a:\\\n\n\tb\n".toList {}).result = .ok (.node .root [.node .rule [
      .node .targets [.node .expression [.leaf (.token .plainText) ['a']]],
      .leaf (.token .colon) [':'], .leaf .continuation ['\\', '\n'],
      .leaf (.token .lineBreak) ['\n'],
      .node .recipe [.leaf (.token .recipePrefix) ['\t'],
        .node .expression [.leaf (.token .plainText) ['b']],
        .leaf (.token .lineBreak) ['\n']]]]) := by cbv
  have hr' : (parse "\nifdef\n".toList {}).result = .error (.parse (.unexpectedToken
      ⟨.lineBreak, ['\n'], ⟨2, 6, 6⟩⟩ [.variableName])) := by cbv
  rw [hr] at h
  rw [hr'] at h'
  exact ⟨hrule, h, hline, h'⟩

end MakeTree
