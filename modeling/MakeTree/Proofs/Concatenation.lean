import Mathlib
import MakeTree.Proofs.Grammar.Relocation
import MakeTree.Proofs.Nest.Placement
import MakeTree.Proofs.Outcome

/-!
Texts one after the other. A text that ends with a line break is parsed in front of another as it
is by itself, and so is the other behind it (`parse_append`): where the first ends the lexer stands
as at the start of a text, and no recipe of the first goes on when the first line of the other is
no part of a recipe.
-/

namespace MakeTree

namespace Lexer

/-- The text is empty, or its last item is a line break with nothing behind it. -/
def EndsLine (lx : Lexer) : Prop :=
  lx.rest = [] ∨ ∃ t after, lx.items.getLast? = some (.ok t, after) ∧ t.kind = .lineBreak ∧
    after.rest = []

theorem EndsLine.run {lx : Lexer} (h : lx.EndsLine) : lx.run.1 = [] ∧ lx.rest = [] ∨
    ∃ t change, lx.run.1.getLast? = some (.token t change) ∧ t.kind = .lineBreak := by
  rcases h with h | ⟨t, after, hl, hk, hr⟩
  · exact .inl ⟨by rw [run_of_rest h], h⟩
  · obtain ⟨ps, change, hs, hp⟩ := steps_of_items (List.mem_of_getLast? hl)
    refine .inr ⟨t, change, ?_, hk⟩
    rw [hs.run, run_of_rest hr, List.append_nil]
    exact hp

variable {a b : Text} {c : Char}

theorem EndsLine.trailing {lx : Lexer} (h : lx.EndsLine) : lx.nests.2 = [] := by
  rw [nests_eq, lexemes]
  rcases h.run with ⟨h, -⟩ | ⟨t, change, h, -⟩
  · rw [h]
    rfl
  · obtain ⟨ps, hps⟩ := List.getLast?_eq_some_iff.1 h
    rw [hps, Piece.lexemes_append]
    rfl

theorem EndsLine.nests (h : (start a c).EndsLine) (hu : (start a c).unclosed? = none) :
    Nest.EndLine (start a c).nests.1 := by
  have hn : (start a c).nests = ((start a c).nests.1, (start a c).nests.2) := rfl
  obtain ⟨hf, -⟩ := lexemes_of_nests hn
  have hc := closed_nests hu
  rcases List.eq_nil_or_concat' (start a c).nests.1 with hnil | ⟨ns, n, hcat⟩
  · rw [hnil]
    nofun
  · rw [hcat] at hf hc ⊢
    intro m hm
    obtain rfl : n = m := by simpa using hm
    rcases h.run with ⟨hr, -⟩ | ⟨t, change, hr, hk⟩
    · rw [lexemes, hr] at hf
      have hnil := Nest.flattenAll_eq_nil hf
      simp at hnil
    · obtain ⟨ps, hps⟩ := List.getLast?_eq_some_iff.1 hr
      rw [lexemes, hps, Piece.lexemes_append, List.map_append, Nest.flattenAll_append,
        Parser.flattenAll_singleton] at hf
      have hlast : (Nest.flattenAll ns ++ n.flatten).getLast? = some (Nest.ofLexeme
          ⟨(Piece.lexemes [] ps).2, t⟩) := by
        rw [hf]
        exact List.getLast?_concat
      rw [Nest.isLineBreak, beq_iff_eq]
      have hn := (Nest.closedAll_append.1 hc).2.1
      by_cases hp : n.kind = .expansionPrefix
      · cases n with
        | expansion opener body closer =>
          rw [Nest.flatten, ← List.cons_append, ← List.append_assoc, List.getLast?_concat] at hlast
          have hfirst := congrArg Nest.first (Option.some.inj hlast)
          rw [Nest.first_ofLexeme] at hfirst
          have hcl : closer.token.kind = .expansionSuffix := hn.2.2
          rw [show closer = _ from hfirst] at hcl
          exact absurd (hcl.symm.trans hk) (by decide)
        | leaf x => exact absurd hp hn.1
        | quoted x inside trailing => exact absurd (hn.symm.trans hp) (by decide)
        | raw x => exact absurd (hn.symm.trans hp) (by decide)
      · rw [Nest.flatten_eq_of_closed hn hp, List.getLast?_concat] at hlast
        rw [Option.some.inj hlast, Nest.kind, Nest.token, Nest.first_ofLexeme]
        exact hk

theorem run_append (hend : (start a c).EndsLine) (hu : (start a c).unclosed? = none)
    (hseam : a.Seam b) :
    (start (a ++ b) c).Yields (start a c).nests.1 []
        ((start b c).shift a.lineBreaks a.byteSize) ∧
      (start (a ++ b) c).run = ((start a c).run.1 ++
        ((start b c).shift a.lineBreaks a.byteSize).run.1,
        ((start b c).shift a.lineBreaks a.byteSize).run.2) := by
  obtain ⟨ps, xs, hs, hx, hm, hc⟩ := yields_start hu
  have hps : (start a c).run.1 = ps := by
    rw [hs.run, run_of_rest (run_rest _), List.append_nil]
  have hlast : (start a c).run.2.rest = [] := run_rest _
  have hends : (start a c).rest = [] ∨ (start a c).rest.EndsLine b := by
    rcases hend.run with ⟨-, h⟩ | ⟨t, change, h, hk⟩
    · exact .inl h
    · rw [hps] at h
      have he := hs.endsLine h hk
      have htext : ps.flatMap Piece.text = a := by
        have ht := hs.text
        rwa [hlast, List.append_nil] at ht
      rw [htext] at he
      exact .inr (he.imp_right fun hr => ⟨hr.1, hseam hr.1⟩)
  have hx' := hs.extend hends
  have hy : (start (a ++ b) c).Yields (start a c).nests.1 [] ((start a c).run.2.extend b) :=
    ⟨ps, xs, hx', by rw [hx, hend.trailing], hm, hc⟩
  have hframes : (start a c).run.2.frames = [] := by simpa [unclosed?] using hu
  have hopen : ((start a c).run.2.extend b).expansions = 0 := by
    rw [expansions]
    exact congrArg (List.countP _) hframes
  have hmid := hy.restart hopen (hend.nests hu)
  have htext := hy.text
  rw [extend_rest, hlast, List.nil_append] at hmid htext
  have ha : Nest.textOf (start a c).nests.1 = a := by
    simpa [Trivia.textOf, start] using htext
  rw [ha] at hmid
  rw [← hmid]
  refine ⟨hy, ?_⟩
  rw [hps]
  exact hx'.run

section Append

variable {strict : Bool} (hend : (start a c).EndsLine) (hr : (start a c).refusal strict = none)
  (hseam : a.Seam b)

include hend hr hseam

theorem refusal_append : (start (a ++ b) c).refusal strict =
    ((start b c).refusal strict).map (LexError.shift a.lineBreaks a.byteSize) := by
  obtain ⟨hs, hu⟩ := refusal_eq_none.1 hr
  obtain ⟨-, hrun⟩ := run_append hend hu hseam
  rw [← refusal_shift, refusal_eq, refusal_eq, unclosed?, unclosed?, hrun]
  cases strict with
  | false => rfl
  | true => simp only [List.findSome?_append, hs rfl, Option.none_or]

theorem nests_append (hb : (start b c).unclosed? = none) : (start (a ++ b) c).nests =
    ((start a c).nests.1 ++ ((start b c).shift a.lineBreaks a.byteSize).nests.1,
      (start b c).nests.2) := by
  obtain ⟨-, hu⟩ := refusal_eq_none.1 hr
  obtain ⟨hy, -⟩ := run_append hend hu hseam
  have h := (hy.append (yields_nests (unclosed?_shift _ _ _ hb) rfl)).nests (run_rest _)
  rw [h.1, trailing_shift]

theorem lines_append (hb : (start b c).unclosed? = none) : (start (a ++ b) c).lines =
    (start a c).lines ++ ((start b c).shift a.lineBreaks a.byteSize).lines := by
  obtain ⟨-, hu⟩ := refusal_eq_none.1 hr
  rw [lines, nests_append hend hr hseam hb, Line.split_append (hend.nests hu), lines, lines]

end Append

/-- The first line, if there is one, belongs to no rule or conditional in front of it. -/
def StartsFresh (lx : Lexer) : Prop :=
  ∀ line ∈ lx.lines.head?, (LineKind.ofLine line).Fresh

/-- Lines that start fresh keep no recipe in front of them going, wherever they stand. -/
theorem StartsFresh.quieter {lx : Lexer} (h : lx.StartsFresh) (l n : Nat)
    (hc : Nest.ClosedAll (lx.shift l n).lines.flatten) : Parser.Quieter [] (lx.shift l n).lines := by
  have hls := lines_shift l n lx
  unfold StartsFresh at h
  generalize lx.lines = ks at hls h
  generalize (lx.shift l n).lines = ls at hls hc ⊢
  cases hls with
  | nil => exact .nil _
  | cons hline _ =>
    refine .of_fresh ?_ hc
    rw [Likeness.ofLine hline.nests]
    exact h _ rfl

theorem StartsFresh.exchange (hb : (start b c).StartsFresh) {l n : Nat}
    (hu : (start a c).unclosed? = none)
    (hcut : Line.Cut ((start a c).lines ++ ((start b c).shift l n).lines))
    (hcl : Nest.ClosedAll ((start a c).lines ++ ((start b c).shift l n).lines).flatten) :
    Parser.Exchange (start a c).lines [] ((start b c).shift l n).lines := by
  rw [List.flatten_append] at hcl
  refine ⟨?_, ?_, hcut, hb.quieter l n (Nest.closedAll_append.1 hcl).2⟩
  · rw [List.append_nil]
    exact cut_lines _
  · rw [List.append_nil]
    exact closed_lines hu

/-- A text and another behind it. -/
theorem result_append {strict : Bool} {t : Tree} (ha : (start a c).result strict = .ok t)
    (hend : (start a c).EndsLine) (hseam : a.Seam b) (hb : (start b c).StartsFresh) :
    (start (a ++ b) c).result strict = match (start b c).result strict with
      | .ok u => .ok (.node .root (t.children ++ u.children))
      | .error e => .error (e.shift a.lineBreaks a.byteSize) := by
  obtain ⟨hr, ts, rfl, hp⟩ := result_ok ha
  have hu := (refusal_eq_none.1 hr).2
  rw [result, refusal_append hend hr hseam, result]
  cases hrb : (start b c).refusal strict with
  | some e => rfl
  | none =>
    have hub := (refusal_eq_none.1 hrb).2
    have hl := lines_append hend hr hseam hub
    have hn := nests_append hend hr hseam hub
    have huab := (refusal_eq_none.1 ((refusal_append hend hr hseam).trans
      (congrArg (Option.map _) hrb))).2
    have hcut := cut_lines (start (a ++ b) c)
    have hcl := closed_lines huab
    rw [hl] at hcut hcl
    have hx := hb.exchange hu hcut hcl
    obtain ⟨es, hruns⟩ := (hp.relocate (List.append_nil _).symm hx trivial).runs [] []
    have hsim := Parser.sim_statements (lines_shift a.lineBreaks a.byteSize (start b c)) [] [] .nil
      [] ([] ++ ts) [] es
    simp only [Option.map_none]
    rw [parse_result_eq, parse_result_eq, hl, hn, hruns, hend.trailing]
    generalize Parser.statements (start b c).lines ⟨[], [], []⟩ = r at hsim ⊢
    generalize Parser.statements _ ⟨[], [] ++ ts, es⟩ = r' at hsim ⊢
    cases hsim with
    | ok _ _ ht =>
      simp only
      rw [← show _ = _ from ht]
      simp [Tree.children]
    | error he => rw [he.eq_shift]; rfl

end Lexer

/-- A text that ends its last line is parsed in front of another as by itself, and so is the other
behind it, if that starts with a line of its own. -/
theorem parse_append {a b : Text} {options : Options} {t : Tree}
    (ha : (parse a options).result = .ok t)
    (hend : (Lexer.start a options.recipePrefix).EndsLine)
    (hseam : ¬ (a.getLast? = some '\r' ∧ b.head? = some '\n'))
    (hb : (Lexer.start b options.recipePrefix).StartsFresh) :
    (parse (a ++ b) options).result = match (parse b options).result with
      | .ok u => .ok (.node .root (t.children ++ u.children))
      | .error e => .error (e.shift a.lineBreaks a.byteSize) := by
  rw [parse_result_start] at ha
  rw [parse_result_start, parse_result_start]
  exact Lexer.result_append ha hend (fun h h' => hseam ⟨h, h'⟩) hb

/-- A rule in front of a line that is none: the error is on the second line. -/
theorem parse_append_rule : ∃ t, (parse "a:\n".toList {}).result = .ok t ∧
    (Lexer.start "a:\n".toList '\t').EndsLine ∧
    ¬ ("a:\n".toList.getLast? = some '\r' ∧ "b\n".toList.head? = some '\n') ∧
    (Lexer.start "b\n".toList '\t').StartsFresh ∧
    (parse ("a:\n".toList ++ "b\n".toList) {}).result = match (parse "b\n".toList {}).result with
      | .ok u => .ok (.node .root (t.children ++ u.children))
      | .error e => .error (e.shift 1 3) := by
  have ha : (parse "a:\n".toList {}).result = .ok (.node .root [.node .rule [
      .node .targets [.node .expression [.leaf (.token .plainText) ['a']]],
      .leaf (.token .colon) [':'], .leaf (.token .lineBreak) ['\n']]]) := by cbv
  have h₁ : (Lexer.start "a:\n".toList '\t').next = (some (.ok ⟨.plainText, ['a'], ⟨1, 1, 0⟩⟩),
      ⟨[':', '\n'], ⟨1, 2, 1⟩, [], false, false, '\t', false⟩) := by cbv
  have h₂ : (⟨[':', '\n'], ⟨1, 2, 1⟩, [], false, false, '\t', false⟩ : Lexer).next =
      (some (.ok ⟨.colon, [':'], ⟨1, 2, 1⟩⟩), ⟨['\n'], ⟨1, 3, 2⟩, [], false, false, '\t', false⟩) := by
    cbv
  have h₃ : (⟨['\n'], ⟨1, 3, 2⟩, [], false, false, '\t', false⟩ : Lexer).next =
      (some (.ok ⟨.lineBreak, ['\n'], ⟨1, 3, 2⟩⟩), ⟨[], ⟨2, 1, 3⟩, [], true, true, '\t', false⟩) := by
    cbv
  have h₄ : (⟨[], ⟨2, 1, 3⟩, [], true, true, '\t', false⟩ : Lexer).next =
      (none, ⟨[], ⟨2, 1, 3⟩, [], true, true, '\t', true⟩) := by cbv
  have hend : (Lexer.start "a:\n".toList '\t').EndsLine := by
    refine .inr ⟨⟨.lineBreak, ['\n'], ⟨1, 3, 2⟩⟩, ⟨[], ⟨2, 1, 3⟩, [], true, true, '\t', false⟩,
      ?_, rfl, rfl⟩
    rw [Lexer.items_cons h₁, Lexer.items_cons h₂, Lexer.items_cons h₃, Lexer.items_nil h₄]
    rfl
  have hkind : (Lexer.start "b\n".toList '\t').lines.head?.map LineKind.ofLine = some .other := by
    cbv
  have hb : (Lexer.start "b\n".toList '\t').StartsFresh := by
    intro line hl
    rw [Option.mem_def.1 hl] at hkind
    rw [Option.some.inj hkind]
    exact ⟨by simp, by simp, by simp, by simp, by simp, by simp⟩
  have hseam : ¬ ("a:\n".toList.getLast? = some '\r' ∧ "b\n".toList.head? = some '\n') := by decide
  exact ⟨_, ha, hend, hseam, hb, parse_append ha hend hseam hb⟩

end MakeTree
