import Mathlib
import MakeTree.Proofs.Nest.Written
import MakeTree.Proofs.TreeGrammar

/-!
The body of a definition (`parse_definition_body`). It is the text of the lines between the first
line and the one that closes the definition, up to the last line break. What was passed over right
in front of that line break is left out, since it is written with the line break and not with the
body.
-/

namespace MakeTree

open MakeTree.Tree

namespace Nest

variable {start : Nat} {ns : List Nest}

theorem textOf_singleton {n : Nest} (h : n.flatten = [n]) :
    textOf [n] = Trivia.textOf n.first.leading ++ n.token.text := by
  rw [textOf, flattenAll, h]
  simp [flattenAll, Lexeme.textOf, Lexeme.text, token]

def ending? (ns : List Nest) : Option Lexeme := ns.getLast?.map first

/-- What was passed over in front of the line break at the end. -/
def passed (ns : List Nest) : List Trivia := (ending? ns).elim [] Lexeme.leading

/-- The text of the line break at the end, which is empty if there is no line. -/
def lastBreak (ns : List Nest) : Text := (ending? ns).elim [] (·.token.text)

theorem flatten_of_isLineBreak {n : Nest} (h : n.Sound) (hl : n.isLineBreak = true) :
    n.flatten = [n] := by
  cases n with
  | expansion opener body closer =>
    have hk : opener.token.kind = .lineBreak := beq_iff_eq.1 hl
    exact absurd (hk.symm.trans h.2.1) (by decide)
  | _ => rfl

section EndLine

variable (hs : SoundAll ns) (hl : EndLine ns)

include hs hl

/-- Whole lines are what stands in front of the last line break, what was passed over there, and the
line break. -/
theorem textOf_endLine :
    textOf ns = textOf ns.dropLast ++ (Trivia.textOf (passed ns) ++ lastBreak ns) := by
  rcases List.eq_nil_or_concat' ns with rfl | ⟨ms, n, rfl⟩
  · rfl
  · have hn := flatten_of_isLineBreak (soundAll_iff.1 hs n (by simp)) (hl n (by simp))
    rw [textOf_append, textOf_singleton hn, List.dropLast_concat, passed, lastBreak, ending?,
      List.getLast?_concat]
    rfl

theorem Seated.passed_valid (h : Seated start ns) : ∀ v ∈ passed ns, v.Valid := by
  rcases List.eq_nil_or_concat' ns with rfl | ⟨ms, n, rfl⟩
  · exact fun v hv => absurd hv List.not_mem_nil
  · have hn := flatten_of_isLineBreak (soundAll_iff.1 hs n (by simp)) (hl n (by simp))
    obtain ⟨xs, hx, hseat⟩ := h.split.2
    rw [flattenAll, hn, flattenAll, List.append_nil] at hx
    obtain ⟨x, rfl, rfl⟩ := List.map_eq_singleton_iff.1 hx
    rw [passed, ending?, List.getLast?_concat, Option.map_some, first_ofLexeme]
    exact hseat.1.leading

end EndLine

end Nest

namespace Lexer

variable {lx : Lexer} {text : Text} {c : Char}

theorem lineBreak_of_mem {n : Nest} (h : n ∈ Nest.flattenAll lx.nests.1)
    (hk : n.isLineBreak = true) : n.token.text.IsLineBreak := by
  obtain ⟨x, hx, rfl⟩ := lexeme_of_mem_flattenAll h
  obtain ⟨mid, next, change, hs, -⟩ := step_of_lexeme hx
  rw [Nest.isLineBreak, beq_iff_eq, Nest.kind] at hk
  rw [Nest.token, Nest.first_ofLexeme] at hk ⊢
  exact (step_lineBreak hs hk).1

/-- A definition among the lines of a text, which starts at the offset: the lines before it, its
first line, those of its body, the line that closes it, and the lines after that. -/
structure DefinitionAt (lx : Lexer) (offset : Nat) (before : List Line) (head : Line)
    (body : List Line) (closing : Line) (after : List Line) : Prop where
  lines : lx.lines = before ++ head :: (body ++ closing :: after)
  seat : offset = (Nest.textOf before.flatten).byteSize
  endef : Line.endef? 0 (body ++ closing :: after) = some body.length

namespace DefinitionAt

variable {offset : Nat} {before body after : List Line} {head closing : Line}
  (h : (start text c).DefinitionAt offset before head body closing after)

include h

theorem flatten_lines : (start text c).lines.flatten =
    before.flatten ++ (head ++ (body.flatten ++ (closing ++ after.flatten))) := by
  rw [h.lines]
  simp

theorem cut_body : Line.Cut (body ++ closing :: after) := by
  have hcut := cut_lines (start text c)
  rw [h.lines] at hcut
  exact hcut.right.tail

theorem endLine_body : Nest.EndLine body.flatten :=
  Line.endLine_flatten (h.cut_body.ended (by simp))

theorem seated_body : ∃ start, Nest.Seated start body.flatten := by
  have hs := seated_lines text c
  rw [h.flatten_lines] at hs
  exact ⟨_, hs.split.2.split.2.split.1⟩

variable (hu : (start text c).unclosed? = none)

include hu

theorem soundAll_body : Nest.SoundAll body.flatten := by
  have hs := (sheet_lines hu).sound
  rw [h.flatten_lines] at hs
  exact Nest.soundAll_iff.2 fun n hn => Nest.soundAll_iff.1 hs n (by simp [hn])

theorem text_eq : ∃ rest, text = Nest.textOf before.flatten ++ (Nest.textOf head ++
    (Nest.textOf body.flatten ++ (Nest.textOf closing ++ rest))) := by
  have hy := (yields_start hu).text
  rw [← Lexer.flatten_lines, h.flatten_lines] at hy
  simp only [Nest.textOf_append, List.append_assoc] at hy
  exact ⟨_, hy.symm⟩

theorem isLineBreak_lastBreak (hne : body ≠ []) : (Nest.lastBreak body.flatten).IsLineBreak := by
  have hn := h.cut_body.left.flatten_ne_nil hne
  obtain ⟨ms, n, he⟩ := (List.eq_nil_or_concat' body.flatten).resolve_left hn
  have hl : n.isLineBreak = true := h.endLine_body n (by simp [he])
  have hs : n.Sound := Nest.soundAll_iff.1 (h.soundAll_body hu) n (by simp [he])
  have hmem : n ∈ Nest.flattenAll (start text c).nests.1 := by
    rw [← Lexer.flatten_lines, h.flatten_lines, he]
    simp [Nest.flattenAll_append, Nest.flattenAll, Nest.flatten_of_isLineBreak hs hl]
  have := lineBreak_of_mem hmem hl
  rwa [Nest.lastBreak, Nest.ending?, he, List.getLast?_concat]

end DefinitionAt

end Lexer

theorem Nest.text_treesOf {start : Nat} {ns : List Nest} (h : Seated start ns) :
    Tree.textOf (treesOf ns) = textOf ns :=
  (reading_treesOf (P := fun _ => True) trivial trivial ns (k := .expression) (by decide)).textOf h

theorem Node.body?_eq {hd te name : List Tree} (ns : List Nest)
    (hn : nodesOf hd = [(.expression, name)]) :
    body? ⟨hd ++ (Parser.bodyTrees ns ++ te)⟩ = some ⟨Nest.treesOf ns.dropLast⟩ := by
  simp [body?, nodes_eq, hn, Parser.bodyTrees, NodeKind.pick]

/-- A definition of a text is made of its lines, and its body of the lines between the first and the
one that closes it. -/
theorem Lexer.result_definition {text : Text} {c : Char} {strict : Bool} {t : Tree}
    (h : (start text c).result strict = .ok t) {p : Placed} (hp : p ∈ t.subtrees)
    {d : Definition} (hd : p.tree = d.tree) : ∃ before head body closing after,
      (start text c).DefinitionAt p.start before head body closing after ∧
        d.body? = some ⟨Nest.treesOf body.flatten.dropLast⟩ := by
  have hk : p.tree.kind = .node .definition := by rw [hd]; rfl
  have hsheet := sheet_lines (refusal_eq_none.1 (result_ok h).1).2
  obtain ⟨line, ls, ms, ⟨before, hb⟩, hseat, hstated⟩ :=
    (statementAt_of_kind h hp hk (.inr rfl)).stated hsheet
  have hdefined : Parser.Defined line ls d.children := by
    refine hstated.definitions _ ?_
    rw [hd]
    exact List.mem_cons_self
  generalize hts : d.children = ts at hdefined
  obtain @⟨count, closing, hdr, te, name, he, hl, -, hn, -, -⟩ := hdefined
  obtain ⟨hlt, rfl⟩ := List.getElem?_eq_some_iff.1 hl
  have hsplit : ls = ls.take count ++ ls[count] :: ls.drop (count + 1) := by
    rw [← List.drop_eq_getElem_cons hlt, List.take_append_drop]
  refine ⟨before, line, ls.take count, ls[count], ls.drop (count + 1), ⟨?_, ?_, ?_⟩, ?_⟩
  · rw [← hsplit, hb]
  · have hs := seated_lines text c
    have hcut := hsheet.cut
    rw [← hb] at hs hcut
    rw [List.flatten_append] at hs
    have hne : (line :: ls).flatten ≠ [] := hcut.right.flatten_ne_nil (by simp)
    rw [hseat.unique hs.split.2 hne, Nat.zero_add]
  · rw [← hsplit, he, List.length_take, Nat.min_eq_left (Nat.le_of_lt hlt)]
  · obtain ⟨us⟩ := d
    obtain rfl : us = _ := hts
    exact Node.body?_eq _ hn

/-- The body of a definition is the text from the end of the first line up to the last line break in
front of the line that closes the definition, without what was passed over right in front of that
line break. -/
theorem parse_definition_body {text : Text} {options : Options} {t : Tree}
    (h : (parse text options).result = .ok t) {p : Placed} (hp : p ∈ t.subtrees) {d : Definition}
    (hd : p.tree = d.tree) : ∃ before head body closing after,
      (Lexer.start text options.recipePrefix).DefinitionAt p.start before head body closing after ∧
      ∃ (b : Expression) (span rest : Text),
        text = Nest.textOf before.flatten ++ (Nest.textOf head ++ (span ++
          (Nest.lastBreak body.flatten ++ (Nest.textOf closing ++ rest)))) ∧
        Nest.textOf body.flatten = span ++ Nest.lastBreak body.flatten ∧
        (body ≠ [] → (Nest.lastBreak body.flatten).IsLineBreak) ∧
        d.body? = some b ∧ span = b.text ++ Trivia.textOf (Nest.passed body.flatten) ∧
        (b.text = span ↔ Nest.passed body.flatten = []) := by
  rw [parse_result_start] at h
  obtain ⟨before, head, body, closing, after, hat, hbody⟩ := Lexer.result_definition h hp hd
  have hu := (Lexer.refusal_eq_none.1 (Lexer.result_ok h).1).2
  have hs := hat.soundAll_body hu
  have hend := hat.endLine_body
  obtain ⟨start, hseat⟩ := hat.seated_body
  obtain ⟨rest, htext⟩ := hat.text_eq hu
  have hb : (⟨Nest.treesOf body.flatten.dropLast⟩ : Expression).text =
      Nest.textOf body.flatten.dropLast := by
    rw [← Parser.dropLast_append_getLast? body.flatten] at hseat
    exact Nest.text_treesOf hseat.split.1
  have hspan : Nest.textOf body.flatten = (Nest.textOf body.flatten.dropLast ++
      Trivia.textOf (Nest.passed body.flatten)) ++ Nest.lastBreak body.flatten := by
    rw [List.append_assoc]
    exact Nest.textOf_endLine hs hend
  refine ⟨before, head, body, closing, after, hat, _, _, rest, ?_, hspan,
    hat.isLineBreak_lastBreak hu, hbody, ?_, ?_⟩
  · rw [hspan, List.append_assoc] at htext
    exact htext
  · rw [hb]
  · rw [hb, List.self_eq_append_right, Trivia.textOf_eq_nil (hseat.passed_valid hs hend)]

/-- A definition whose body ends with a continuation, which does not come into it. -/
theorem parse_continuedBody : ∃ (t : Tree) (d : Definition) (before : List Line) (head : Line)
    (body : List Line) (closing : Line) (after : List Line) (b : Expression),
    (parse "define X\na\\\n\nendef\n".toList {}).result = .ok t ∧
      (⟨1, 0, d.tree⟩ : Placed) ∈ t.subtrees ∧
      (Lexer.start "define X\na\\\n\nendef\n".toList '\t').DefinitionAt 0 before head body closing
        after ∧
      Nest.textOf body.flatten = "a\\\n".toList ++ Nest.lastBreak body.flatten ∧
      d.body? = some b ∧ b.text = ['a'] := by
  let piece (kind : TokenKind) (s : Text) (p : Position) : Nest := .leaf ⟨[], ⟨kind, s, p⟩⟩
  let head : Line := [piece (.keyword .define) "define".toList ⟨1, 1, 0⟩,
    piece .whitespace [' '] ⟨1, 7, 6⟩, piece .plainText ['X'] ⟨1, 8, 7⟩,
    piece .lineBreak ['\n'] ⟨1, 9, 8⟩]
  let line : Line := [piece .plainText ['a'] ⟨2, 1, 9⟩,
    .leaf ⟨[.continuation ['\\', '\n']], ⟨.lineBreak, ['\n'], ⟨3, 1, 12⟩⟩⟩]
  let closing : Line := [piece (.keyword .endef) "endef".toList ⟨4, 1, 13⟩,
    piece .lineBreak ['\n'] ⟨4, 6, 18⟩]
  let d : Definition := ⟨[.leaf (.token (.keyword .define)) "define".toList,
    .leaf (.token .whitespace) [' '], .node .expression [.leaf (.token .plainText) ['X']],
    .leaf (.token .lineBreak) ['\n'], .node .expression [.leaf (.token .plainText) ['a']],
    .leaf .continuation ['\\', '\n'], .leaf (.token .lineBreak) ['\n'],
    .leaf (.token (.keyword .endef)) "endef".toList, .leaf (.token .lineBreak) ['\n']]⟩
  have h : (parse "define X\na\\\n\nendef\n".toList {}).result = .ok (.node .root [d.tree]) := by
    cbv
  have hl : (Lexer.start "define X\na\\\n\nendef\n".toList '\t').lines =
      [head, line, closing] := by cbv
  exact ⟨_, d, [], head, [line], closing, [], ⟨[.leaf (.token .plainText) ['a']]⟩, h,
    List.mem_cons_of_mem _ List.mem_cons_self, ⟨hl, rfl, rfl⟩, rfl, rfl, rfl⟩

/-- With a continuation in front of the last line break. -/
theorem parse_definition_body_continued : ∃ (t : Tree) (p : Placed) (d : Definition),
    (parse "define X\na\\\n\nendef\n".toList {}).result = .ok t ∧ p ∈ t.subtrees ∧
      p.tree = d.tree ∧ ∃ before head body closing after,
        (Lexer.start "define X\na\\\n\nendef\n".toList '\t').DefinitionAt p.start before head body
          closing after ∧
        ∃ (b : Expression) (span rest : Text),
          "define X\na\\\n\nendef\n".toList = Nest.textOf before.flatten ++ (Nest.textOf head ++
            (span ++ (Nest.lastBreak body.flatten ++ (Nest.textOf closing ++ rest)))) ∧
          Nest.textOf body.flatten = span ++ Nest.lastBreak body.flatten ∧
          (body ≠ [] → (Nest.lastBreak body.flatten).IsLineBreak) ∧
          d.body? = some b ∧ span = b.text ++ Trivia.textOf (Nest.passed body.flatten) ∧
          (b.text = span ↔ Nest.passed body.flatten = []) := by
  obtain ⟨t, d, _, _, _, _, _, _, h, hp, -⟩ := parse_continuedBody
  exact ⟨t, _, d, h, hp, rfl, parse_definition_body h hp rfl⟩

/-- The body is not always all that stands in front of the last line break. -/
theorem parse_definition_body_shortened :
    ¬ ∀ (text : Text) (options : Options) (t : Tree) (p : Placed) (d : Definition)
      (before : List Line) (head : Line) (body : List Line) (closing : Line) (after : List Line)
      (b : Expression) (span : Text), (parse text options).result = .ok t → p ∈ t.subtrees →
        p.tree = d.tree → (Lexer.start text options.recipePrefix).DefinitionAt p.start before head
          body closing after →
        Nest.textOf body.flatten = span ++ Nest.lastBreak body.flatten → d.body? = some b →
          b.text = span := by
  intro hall
  obtain ⟨t, d, before, head, body, closing, after, b, h, hp, hat, hs, hb, ht⟩ :=
    parse_continuedBody
  have := hall _ _ t _ d before head body closing after b _ h hp rfl hat hs hb
  rw [ht] at this
  cases this

end MakeTree
