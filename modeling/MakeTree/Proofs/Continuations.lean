import Mathlib
import MakeTree.Proofs.Grammar.Seams
import MakeTree.Proofs.Lexer.Continued
import MakeTree.Proofs.Nest.Placement
import MakeTree.Proofs.Outcome
import MakeTree.Proofs.Tiling

/-!
A continuation put into a text (`parse_inserted`). Where an item starts or ends it changes no other
item and leaves no trace in the tree but itself: only a comment takes the backslash, and only two
colons are read as one sign when nothing stands between them.
-/

namespace MakeTree

def Item.unplaced : Item → Item
  | .ok t => .ok t.unplaced
  | .error e => .error e.unplaced

def ParseError.unplaced : ParseError → ParseError
  | unexpectedToken t expected => unexpectedToken t.unplaced expected
  | unexpectedEnd expected => unexpectedEnd expected

def Error.unplaced : Error → Error
  | notUtf8 => notUtf8
  | lex e => lex e.unplaced
  | parse e => parse e.unplaced

namespace Tree

def isContinuation : Tree → Bool
  | leaf .continuation _ => true
  | _ => false

mutual

/-- The tree without the continuations in it. -/
def uncontinued : Tree → Tree
  | leaf k s => leaf k s
  | node k ts => node k (uncontinuedOf ts)

def uncontinuedOf : List Tree → List Tree
  | [] => []
  | t :: ts => if t.isContinuation then uncontinuedOf ts else t.uncontinued :: uncontinuedOf ts

end

theorem uncontinuedOf_append (ts us : List Tree) :
    uncontinuedOf (ts ++ us) = uncontinuedOf ts ++ uncontinuedOf us := by
  induction ts with
  | nil => rfl
  | cons t ts ih =>
    rw [List.cons_append, uncontinuedOf, uncontinuedOf, ih]
    split <;> rfl

end Tree

def Trivia.isSkipped : Trivia → Bool
  | continuation _ => false
  | skipped _ => true

theorem Trivia.uncontinuedOf_map (us : List Trivia) :
    Tree.uncontinuedOf (us.map tree) = (us.filter isSkipped).map tree := by
  induction us with
  | nil => rfl
  | cons u us ih =>
    rw [List.map_cons, Tree.uncontinuedOf, ih]
    cases u <;> rfl

namespace Likeness

/-- The same but for positions and continuations. -/
def continued : Likeness where
  position _ _ := True
  token t u := u.unplaced = t.unplaced
  trivia us vs := vs.filter Trivia.isSkipped = us.filter Trivia.isSkipped
  forest ts us := Tree.uncontinuedOf us = Tree.uncontinuedOf ts
  kind h := (Token.unplaced_inj.1 h).1
  text h _ := (Token.unplaced_inj.1 h).2
  trivia_nil := rfl
  skipped _ := rfl
  trivia_append h h' := by rw [List.filter_append, List.filter_append, h, h']
  append h h' := by rw [Tree.uncontinuedOf_append, Tree.uncontinuedOf_append, h, h']
  node k h := congrArg (fun ts => [Tree.node k ts]) h
  passed h := by rw [Trivia.uncontinuedOf_map, Trivia.uncontinuedOf_map, h]
  leaf h := by
    obtain ⟨hk, ht⟩ := Token.unplaced_inj.1 h
    rw [hk, ht]
  quote _ := rfl
  plain _ := rfl

theorem cut_of_unplaced {p q : Piece} (h : q.unplaced = p.unplaced) :
    continued.Cut (fun lx ly => ly.unplaced = lx.unplaced) p q := by
  cases p with
  | token t ch =>
    cases q with
    | token u ch' =>
      obtain ⟨ht, rfl⟩ := Piece.token.inj h
      exact .token ht fun _ => Token.inside_unplaced ht
    | continuation => cases h
    | illegal => cases h
  | continuation s =>
    cases q with
    | token => cases h
    | continuation =>
      cases h
      exact .continuation rfl
    | illegal => cases h
  | illegal p c =>
    cases q with
    | token => cases h
    | continuation => cases h
    | illegal =>
      cases h
      exact .illegal c trivial

theorem lockstep_continued : continued.Lockstep fun lx ly => ly.unplaced = lx.unplaced where
  rest h hr := (congrArg Lexer.rest h).trans hr
  frames {lx ly} h := by
    have hf := congrArg List.head? (congrArg Lexer.frames h)
    simp only [Lexer.unplaced, List.head?_map] at hf
    generalize lx.frames.head? = o at hf ⊢
    generalize ly.frames.head? = o' at hf ⊢
    cases o with
    | none =>
      rw [Option.map_eq_none_iff.1 hf]
      exact .none
    | some f =>
      obtain ⟨g, rfl, hg⟩ := Option.map_eq_some_iff.1 hf
      have hk : g.unplaced.kind = f.unplaced.kind := congrArg Frame.kind hg
      exact .some ⟨hk, trivial⟩
  step h hs := by
    obtain ⟨q, next', hs', hq, hn⟩ := Lexer.step_elsewhere h hs
    exact ⟨q, next', hs', cut_of_unplaced hq, hn⟩

theorem Frames.unplaced {f g : Frame} (h : continued.Frames f g) : f.unplaced = g.unplaced := by
  rw [Frame.unplaced, Frame.unplaced, h.kind]

theorem Errors.unplaced {e e' : LexError} (h : continued.Errors e e') :
    e.unplaced = e'.unplaced := by
  cases h with
  | illegal c _ => rfl
  | unterminated h => exact congrArg LexError.unterminated h.unplaced

theorem Items.unplaced {i j : Item} (h : continued.Items i j) : i.unplaced = j.unplaced := by
  cases h with
  | token h => exact congrArg Except.ok h.symm
  | error h => exact congrArg Except.error h.unplaced

end Likeness

theorem ParseError.Corresponds.unplaced {e e' : ParseError} (h : e.Corresponds .continued e') :
    e.unplaced = e'.unplaced := by
  cases h with
  | token h expected => exact congrArg (unexpectedToken · expected) h.symm
  | atEnd expected => rfl

namespace Lexer

variable {lx mid last : Lexer} {p : Piece} {ps : List Piece}

/-- A place where an item starts or ends, or the end of the text. -/
def Boundary (lx : Lexer) (n : Nat) : Prop :=
  n = lx.rest.byteSize ∨
    ∃ item ∈ lx.yielded, ∃ r, item.stretch? = some r ∧ (n = r.1 ∨ n = r.1 + r.2.byteSize)

/-- A place where a continuation can be put in: not behind a comment, nor between two colons. -/
structure Joint (lx : Lexer) (n : Nat) : Prop where
  boundary : lx.Boundary n
  comment : ∀ t, .ok t ∈ lx.yielded → t.kind = .comment → t.stop ≠ n
  colons : ∀ t u, .ok t ∈ lx.yielded → .ok u ∈ lx.yielded → t.kind = .colon → u.kind = .colon →
    t.stop = n → u.position.offset ≠ n

theorem step_stretch {item : Item} (h : lx.step = some (p, last)) (hi : p.item? = some item)
    {r : Nat × Text} (hr : item.stretch? = some r) : r = (lx.position.offset, p.text) := by
  cases p with
  | token t ch =>
    cases hi
    rw [← step_token_position h]
    exact (Option.some.inj hr).symm
  | continuation => cases hi
  | illegal q c =>
    cases hi
    rw [← (step_illegal h).2]
    exact (Option.some.inj hr).symm

theorem Boundary.steps {text : Text} {c : Char} {n : Nat} (h : (start text c).Boundary n) :
    ∃ ps mid, Steps (start text c) ps mid ∧ mid.position.offset = n := by
  have hrun := (start text c).steps_run
  rcases h with rfl | ⟨item, hm, r, hr, hn⟩
  · refine ⟨_, _, hrun, ?_⟩
    rw [hrun.offset, run_text]
    exact Nat.zero_add _
  · rw [yielded_eq] at hm
    rcases List.mem_append.1 hm with hm | hm
    · obtain ⟨p, hp, hi⟩ := List.mem_filterMap.1 hm
      obtain ⟨ps, qs, hps⟩ := List.append_of_mem hp
      rw [hps] at hrun
      obtain ⟨mid, hs, hs'⟩ := hrun.split
      cases hs' with
      | cons hstep _ =>
        obtain rfl := step_stretch hstep hi hr
        rcases hn with rfl | rfl
        · exact ⟨ps, mid, hs, rfl⟩
        · refine ⟨ps ++ [p], _, hs.append (.cons hstep (.nil _)), ?_⟩
          exact step_offset_eq hstep
    · rw [ending?] at hm
      split at hm
      · cases hm
      · obtain ⟨f, -, rfl⟩ := Option.map_eq_some_iff.1 (Option.mem_toList.1 hm)
        cases hr

section Inserted

variable {a b : Text} {c : Char}

/-- The piece in front of a joint is no comment, and no colon if the next piece is one. -/
theorem Joint.lastPiece {n : Nat} {qs : List Piece} {t : Token} {ch : FrameChange} (h : lx.Joint n)
    (hs : Steps lx ps mid) (hq : Steps mid qs last) (hr : last.rest = [])
    (hn : mid.position.offset = n) (hl : ps.getLast? = some (.token t ch)) :
    t.kind ≠ .comment ∧ (t.kind = .colon → qs.head?.any Piece.isColon = false) := by
  have hrun : lx.run.1 = ps ++ qs := by
    rw [(hs.append hq).run, run_of_rest hr, List.append_nil]
  have hstop := (hs.last_stop hl).trans hn
  have ht : .ok t ∈ lx.yielded :=
    mem_yielded_of_run (hrun ▸ List.mem_append_left _ (List.mem_of_getLast? hl)) rfl
  refine ⟨fun hk => h.comment t ht hk hstop, fun hk => ?_⟩
  rcases qs with _ | ⟨⟨u, ch'⟩ | s | ⟨q, d⟩, qs⟩
  · rfl
  · have hu : .ok u ∈ lx.yielded :=
      mem_yielded_of_run (hrun ▸ List.mem_append_right _ List.mem_cons_self) rfl
    refine beq_false_of_ne fun hk' => h.colons t u ht hu hk hk' hstop ?_
    rw [hq.head_position rfl, hn]
  · rfl
  · rfl

theorem Joint.pieces (h : (start (a ++ b) c).Joint a.byteSize) :
    Likeness.continued.Pieces (start (a ++ b) c).run.1
        (start (a ++ '\\' :: '\n' :: b) c).run.1 ∧
      Option.Rel Likeness.continued.Frames (start (a ++ b) c).unclosed?
        (start (a ++ '\\' :: '\n' :: b) c).unclosed? ∧
      Likeness.Seams (fun n => n.isComment || n.isColon)
        ((start (a ++ b) c).lexemes.1.map Nest.ofLexeme)
        ((start (a ++ '\\' :: '\n' :: b) c).lexemes.1.map Nest.ofLexeme) := by
  obtain ⟨ps, mid, hs, hn⟩ := h.boundary.steps
  have hsize : Text.byteSize (ps.flatMap Piece.text) = a.byteSize := by
    rw [← hn, hs.offset]
    exact (Nat.zero_add _).symm
  obtain ⟨ha, hb⟩ := Text.append_inj hs.text hsize
  have hlast (t : Token) (ch : FrameChange) (hl : ps.getLast? = some (.token t ch)) :=
    h.lastPiece hs mid.steps_run mid.run_rest hn hl
  have hcut := hs.truncate
  rw [ha] at hcut
  have hins := hcut.continued rfl (fun t ch hl => (hlast t ch hl).1) b
  obtain ⟨next, hstep, hnext⟩ := mid.step_inserted
  rw [hb] at hstep
  have hrun : (start (a ++ '\\' :: '\n' :: b) c).run =
      (ps ++ .continuation ['\\', '\n'] :: next.run.1, next.run.2) := by
    have hsteps := (hins.append (.cons hstep (.nil _))).run
    rwa [List.append_assoc] at hsteps
  have hps : Likeness.continued.Pieces ps ps := by
    have hself : ((start (a ++ b) c).withRest a).unplaced = _ := rfl
    have hp := (Likeness.lockstep_continued.pieces hself).1
    rwa [hcut.run, run_of_rest rfl, List.append_nil] at hp
  obtain ⟨hp, hu, -⟩ := Likeness.lockstep_continued.pieces hnext
  have hc := Likeness.lockstep_continued.cuts mid.steps_run mid.run_rest hnext
  rw [lexemes, lexemes, unclosed?, unclosed?, hrun, hs.run]
  refine ⟨hps.append (.continued rfl hp), hu, ?_⟩
  refine Likeness.seams_inserted hc _ (fun t ch hl hk => ?_) []
  exact (hlast t ch hl).2 (hk.resolve_left (hlast t ch hl).1)

theorem Joint.lines (h : (start (a ++ b) c).Joint a.byteSize)
    (hu : (start (a ++ b) c).unclosed? = none) : Likeness.continued.Lines
      (start (a ++ b) c).lines (start (a ++ '\\' :: '\n' :: b) c).lines := by
  obtain ⟨hp, -, hs⟩ := h.pieces
  have hflat (lx : Lexer) : Nest.flattenAll lx.nests.1 = lx.lexemes.1.map Nest.ofLexeme :=
    (lexemes_of_nests rfl).1
  refine Likeness.lines hp.nests.1 (.of_flattenAll hp.nests.1 (closed_nests hu) ?_ ?_)
  · intro n hn
    rcases Bool.or_eq_true _ _ ▸ hn with hn | hn
    · rw [eq_of_beq hn]
      decide
    · rw [eq_of_beq hn]
      decide
  · rwa [hflat, hflat]

end Inserted

end Lexer

/-- A continuation put in where an item starts or ends is all that changes. -/
theorem parse_inserted {a b : Text} {options : Options}
    (h : (Lexer.start (a ++ b) options.recipePrefix).Joint a.byteSize) :
    (Lexer.start (a ++ '\\' :: '\n' :: b) options.recipePrefix).yielded.map Item.unplaced =
        (Lexer.start (a ++ b) options.recipePrefix).yielded.map Item.unplaced ∧
      match (parse (a ++ b) options).result, (parse (a ++ '\\' :: '\n' :: b) options).result with
      | .ok t, .ok u => u.uncontinued = t.uncontinued
      | .error e, .error e' => e'.unplaced = e.unplaced
      | _, _ => False := by
  obtain ⟨hp, hu, -⟩ := h.pieces
  constructor
  · have hi := (hp.yielded hu rfl).imp fun _ _ => Likeness.Items.unplaced
    have hm : List.Forall₂ (· = ·) _ _ :=
      List.forall₂_map_left_iff.2 (List.forall₂_map_right_iff.2 hi)
    rw [List.forall₂_eq_eq_eq] at hm
    exact hm.symm
  · have hr := Lexer.results hp hu h.lines options.strict
    rw [parse_result_start, parse_result_start]
    generalize (Lexer.start (a ++ b) options.recipePrefix).result options.strict = r at hr ⊢
    generalize (Lexer.start (a ++ _) options.recipePrefix).result options.strict = r' at hr ⊢
    cases hr with
    | tree h => exact congrArg (Tree.node .root) h
    | lex h => exact congrArg Error.lex h.unplaced.symm
    | parse h => exact congrArg Error.parse h.unplaced.symm

/-- A double-colon rule goes on behind its colons. -/
theorem parse_inserted_colons :
    (Lexer.start ("a::".toList ++ "b\n".toList) '\t').Joint 3 ∧
    ∃ u, (parse ("a::".toList ++ '\\' :: '\n' :: "b\n".toList) {}).result = .ok u ∧
      u.uncontinued = .node .root [.node .rule [
        .node .targets [.node .expression [.leaf (.token .plainText) ['a']]],
        .leaf (.token .colon) [':'], .leaf (.token .colon) [':'],
        .node .prerequisites [.node .expression [.leaf (.token .plainText) ['b']]],
        .leaf (.token .lineBreak) ['\n']]] := by
  have hitems : (Lexer.start ("a::".toList ++ "b\n".toList) '\t').yielded = [
      .ok ⟨.plainText, ['a'], ⟨1, 1, 0⟩⟩, .ok ⟨.colon, [':'], ⟨1, 2, 1⟩⟩,
      .ok ⟨.colon, [':'], ⟨1, 3, 2⟩⟩, .ok ⟨.plainText, ['b'], ⟨1, 4, 3⟩⟩,
      .ok ⟨.lineBreak, ['\n'], ⟨1, 5, 4⟩⟩] := by
    rw [Lexer.yielded_eq]
    cbv
  have hjoint : (Lexer.start ("a::".toList ++ "b\n".toList) '\t').Joint 3 := by
    refine ⟨.inr ⟨.ok ⟨.colon, [':'], ⟨1, 3, 2⟩⟩, ?_, (2, [':']), rfl, .inr rfl⟩, ?_, ?_⟩
    · rw [hitems]
      simp
    · rw [hitems]
      simp
    · intro t u _ hu _ hk _ ho
      rw [hitems] at hu
      simp only [List.mem_cons, Except.ok.injEq, List.not_mem_nil, or_false] at hu
      rcases hu with rfl | rfl | rfl | rfl | rfl
      all_goals simp at hk ho
  have hresult : (parse ("a::".toList ++ "b\n".toList) {}).result = .ok (.node .root [.node .rule [
      .node .targets [.node .expression [.leaf (.token .plainText) ['a']]],
      .leaf (.token .colon) [':'], .leaf (.token .colon) [':'],
      .node .prerequisites [.node .expression [.leaf (.token .plainText) ['b']]],
      .leaf (.token .lineBreak) ['\n']]]) := by cbv
  have h := (@parse_inserted "a::".toList "b\n".toList {} hjoint).2
  rw [hresult] at h
  refine ⟨hjoint, ?_⟩
  split at h
  · next t u ht hu =>
    cases ht
    exact ⟨u, hu, h⟩
  · next ht _ => cases ht
  · exact h.elim

end MakeTree
