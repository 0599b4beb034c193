import MakeTree.Proofs.Lexer.Cut
import MakeTree.Proofs.Nest.Placement

/-!
Cutting a text at its nests. `lx.Yields ns trailing last` says that some first pieces of the text
are the nests `ns`. Such a stretch comes apart between any two nests, where no frame is open
(`Yields.split`), and where a line ends there the lexer stands as at the start of a text
(`Yields.restart`); read by itself the stretch gives the same nests (`Yields.alone`).
-/

namespace MakeTree

namespace Nest

/-- The text of the nests, read off their lexemes. -/
def textOf (ns : List Nest) : Text := Lexeme.textOf ((flattenAll ns).map first)

/-- The last line is complete, if there is any. -/
def EndLine (ns : List Nest) : Prop := ∀ n ∈ ns.getLast?, n.isLineBreak = true

theorem map_first_ofLexeme (xs : List Lexeme) : (xs.map ofLexeme).map first = xs := by
  induction xs with
  | nil => rfl
  | cons x xs ih => rw [List.map_cons, List.map_cons, ih, first_ofLexeme]

theorem map_token_ofLexeme (xs : List Lexeme) :
    (xs.map ofLexeme).map token = xs.map Lexeme.token := by
  rw [List.map_map]
  exact List.map_congr_left fun x _ => congrArg Lexeme.token (first_ofLexeme x)

/-- The nests are those of lexemes that stand one after the other, the first at the offset. -/
def Seated (start : Nat) (ns : List Nest) : Prop :=
  ∃ xs : List Lexeme, xs.map ofLexeme = flattenAll ns ∧ Lexeme.Seated start xs

theorem Seated.split {start : Nat} {ms ns : List Nest} (h : Seated start (ms ++ ns)) :
    Seated start ms ∧ Seated (start + (textOf ms).byteSize) ns := by
  obtain ⟨xs, hx, hs⟩ := h
  rw [flattenAll_append] at hx
  obtain ⟨ys, zs, -, hy, hz, hs⟩ := Lexeme.seated_split hx hs
  refine ⟨⟨ys, hy⟩, zs, hz, ?_⟩
  rwa [textOf, ← hy.1, map_first_ofLexeme]

theorem textOf_append (ms ns : List Nest) : textOf (ms ++ ns) = textOf ms ++ textOf ns := by
  rw [textOf, flattenAll_append, List.map_append, Lexeme.textOf_append]
  rfl

theorem seated_nests (lx : Lexer) : Seated lx.position.offset lx.nests.1 :=
  ⟨lx.lexemes.1, (Lexer.lexemes_of_nests (Prod.ext rfl rfl)).1.symm, lx.seated_lexemes.1⟩

end Nest

theorem Reading.textOf {P : NodeKind → Prop} {k : NodeKind} {ns : List Nest} {ts : List Tree}
    (h : Reading P k (Nest.flattenAll ns) ts) {start : Nat} (hs : Nest.Seated start ns) :
    Tree.textOf ts = Nest.textOf ns := by
  obtain ⟨xs, hx, hseat⟩ := hs
  rw [h.text hx.symm hseat, Nest.textOf, ← hx, Nest.map_first_ofLexeme]

namespace Lexer

/-- `lx` cuts off the lexemes `xs`, passes over `trailing` and becomes `last`. -/
def Covers (lx : Lexer) (xs : List Lexeme) (trailing : List Trivia) (last : Lexer) : Prop :=
  ∃ ps, Steps lx ps last ∧ Piece.lexemes [] ps = (xs, trailing)

theorem Covers.split {lx last : Lexer} {xs ys : List Lexeme} {trailing : List Trivia}
    (h : lx.Covers (xs ++ ys) trailing last) :
    ∃ mid, lx.Covers xs [] mid ∧ mid.Covers ys trailing last := by
  obtain ⟨ps, hs, hx⟩ := h
  by_cases he : xs = []
  · subst he
    exact ⟨lx, ⟨[], .nil lx, rfl⟩, ⟨ps, hs, hx⟩⟩
  · have hxy : (Piece.lexemes [] ps).1 = xs ++ ys := by rw [hx]
    obtain ⟨qs, rs, -, -, rfl, hq, -, -⟩ := Piece.lexemes_split hxy he
    obtain ⟨mid, hqs, hrs⟩ := hs.split
    rw [Piece.lexemes_append, hq] at hx
    obtain ⟨hys, ht⟩ := Prod.mk.inj hx
    exact ⟨mid, ⟨qs, hqs, hq⟩, ⟨rs, hrs, Prod.ext (List.append_cancel_left hys) ht⟩⟩

/-- `lx` cuts off the nests `ns`, passes over `trailing` and becomes `last`. -/
def Yields (lx : Lexer) (ns : List Nest) (trailing : List Trivia) (last : Lexer) : Prop :=
  ∃ ps xs, Steps lx ps last ∧ Piece.lexemes [] ps = (xs, trailing) ∧
    xs.map Nest.ofLexeme = Nest.flattenAll ns ∧ Nest.ClosedAll ns

variable {lx mid last : Lexer} {ms ns : List Nest} {trailing : List Trivia}

theorem start_grounded (text : Text) (prefixChar : Char) : (start text prefixChar).Grounded := by
  intro f hf
  cases hf

theorem yields_nests (h : lx.unclosed? = none) (he : lx.expansions = 0) :
    lx.Yields lx.nests.1 lx.nests.2 lx.run.2 := by
  have hf : lx.run.2.frames = [] := by simpa [unclosed?] using h
  have hl : lx.run.2.expansions = 0 := by rw [expansions, hf]; rfl
  obtain ⟨h₁, -, h₃⟩ := pair_steps lx.steps_run hl []
  rw [he] at h₃
  rw [nests_eq]
  refine ⟨_, _, lx.steps_run, rfl, ?_, ?_⟩
  · refine (Nest.flattenAll_gather fun n hn => ?_).symm
    obtain ⟨x, -, rfl⟩ := List.mem_map.1 hn
    exact Nest.isFlat_ofLexeme x
  · have h₂ := List.length_eq_zero_iff.1 h₃
    simp only [Nest.gather, lexemes, h₂, List.flatMap_nil, List.append_nil]
    exact h₁

namespace Yields

theorem text (h : lx.Yields ns trailing last) :
    Nest.textOf ns ++ Trivia.textOf trailing ++ last.rest = lx.rest := by
  obtain ⟨ps, xs, hs, hx, hn, -⟩ := h
  have := Piece.lexemes_text [] ps
  rw [hx] at this
  rw [Nest.textOf, ← hn, Nest.map_first_ofLexeme, this, ← hs.text]
  rfl

theorem expansions (h : lx.Yields ns trailing last) (hl : last.expansions = 0) :
    lx.expansions = 0 := by
  obtain ⟨ps, xs, hs, hx, hn, hc⟩ := h
  obtain ⟨-, -, hlen⟩ := pair_steps hs hl []
  have hp := Nest.pair_flattenAll ns hc []
  rw [List.append_nil] at hp
  rw [← hlen, hx, hn, hp]
  rfl

theorem split (h : lx.Yields (ms ++ ns) trailing last) :
    ∃ mid, lx.Yields ms [] mid ∧ mid.Yields ns trailing last := by
  obtain ⟨ps, xs, hs, hx, hn, hc⟩ := h
  obtain ⟨hm, hc⟩ := Nest.closedAll_append.1 hc
  rw [Nest.flattenAll_append] at hn
  obtain ⟨ys, zs, rfl, hy, hz⟩ := List.map_eq_append_iff.1 hn
  have hcov : lx.Covers (ys ++ zs) trailing last := ⟨ps, hs, hx⟩
  obtain ⟨mid, ⟨qs, hqs, hq⟩, rs, hrs, hr⟩ := hcov.split
  exact ⟨mid, ⟨qs, ys, hqs, hq, hy, hm⟩, ⟨rs, zs, hrs, hr, hz, hc⟩⟩

theorem append (h : lx.Yields ms [] mid) (h' : mid.Yields ns trailing last) :
    lx.Yields (ms ++ ns) trailing last := by
  obtain ⟨ps, xs, hs, hx, hn, hc⟩ := h
  obtain ⟨qs, ys, hs', hy, hn', hc'⟩ := h'
  refine ⟨ps ++ qs, xs ++ ys, hs.append hs', ?_, ?_, Nest.closedAll_append.2 ⟨hc, hc'⟩⟩
  · rw [Piece.lexemes_append, hx, hy]
  · rw [List.map_append, hn, hn', Nest.flattenAll_append]

theorem lastPiece {n : Nest} (h : lx.Yields (ms ++ [n]) [] last) (hn : n.isLineBreak = true) :
    ∃ ps t change, Steps lx ps last ∧ ps.flatMap Piece.text = Nest.textOf (ms ++ [n]) ∧
      ps.getLast? = some (.token t change) ∧ t.kind = .lineBreak := by
  obtain ⟨ps, xs, hs, hx, he, hc⟩ := h
  have hk : n.kind = .lineBreak := by simpa [Nest.isLineBreak] using hn
  have hf : n.flatten = [n] := by
    have hc := (Nest.closedAll_append.1 hc).2.1
    cases n with
    | leaf x => rfl
    | quoted x inside trailing => rfl
    | raw x => rfl
    | expansion opener body closer => exact absurd (hk.symm.trans hc.1) (by decide)
  have htext := Piece.lexemes_text [] ps
  rw [hx] at htext
  have hfl : (xs.map Nest.ofLexeme).getLast? = some n := by
    rw [he, Nest.flattenAll_append, Nest.flattenAll, hf, Nest.flattenAll, List.append_nil,
      List.getLast?_concat]
  obtain ⟨x, hl, rfl⟩ := Option.map_eq_some_iff.1 (List.getLast?_map ▸ hfl)
  have hne : xs ≠ [] := by
    rintro rfl
    cases hl
  have hxs : (Piece.lexemes [] ps).1 = xs ++ [] := by rw [hx, List.append_nil]
  obtain ⟨qs, rs, t, change, rfl, hq, hlast, ht⟩ := Piece.lexemes_split hxs hne
  rw [Piece.lexemes_append, hq] at hx
  have hr : Piece.lexemes [] rs = ([], []) := by
    obtain ⟨h₁, h₂⟩ := Prod.mk.inj hx
    exact Prod.ext (List.append_cancel_left (h₁.trans (List.append_nil xs).symm)) h₂
  obtain ⟨-, rfl⟩ := Piece.lexemes_eq_nil hr
  rw [List.append_nil] at hs htext
  refine ⟨qs, t, change, hs, ?_, hlast, ?_⟩
  · rw [Nest.textOf, ← he, Nest.map_first_ofLexeme]
    simpa [Trivia.textOf] using htext.symm
  · rw [hl] at ht
    cases ht
    rwa [Nest.kind, Nest.token, Nest.first_ofLexeme] at hk

/-- Between two nests, where a line starts, the lexer stands as at the start of the text. -/
theorem restart {text : Text} {c : Char} (h : (start text c).Yields ms [] mid)
    (hm : mid.expansions = 0) (hl : Nest.EndLine ms) :
    mid = (start mid.rest c).shift (Nest.textOf ms).lineBreaks (Nest.textOf ms).byteSize := by
  rcases List.eq_nil_or_concat' ms with rfl | ⟨ms, n, rfl⟩
  · obtain ⟨ps, xs, hs, hx, he, -⟩ := h
    obtain rfl : xs = [] := List.map_eq_nil_iff.1 he
    obtain ⟨-, rfl⟩ := Piece.lexemes_eq_nil hx
    cases hs
    rfl
  · obtain ⟨ps, t, change, hs, ht, hp, hk⟩ := h.lastPiece (hl n (by simp))
    rw [← ht]
    exact hs.restart ((hs.grounded (start_grounded _ _)).frames_eq_nil hm) hp hk

/-- The nests of a stretch are those of its text alone, and so are its pieces. -/
theorem alone (h : lx.Yields ns [] mid) :
    (lx.withRest (Nest.textOf ns)).Yields ns [] (mid.withRest []) ∧
      lx.run.1 = (lx.withRest (Nest.textOf ns)).run.1 ++ mid.run.1 := by
  obtain ⟨ps, xs, hs, hx, he, hc⟩ := h
  have := Piece.lexemes_text [] ps
  rw [hx] at this
  rw [Nest.textOf, ← he, Nest.map_first_ofLexeme]
  have ht : Lexeme.textOf xs = ps.flatMap Piece.text := by simpa [Trivia.textOf] using this
  rw [ht]
  refine ⟨⟨ps, xs, hs.truncate, hx, he, hc⟩, ?_⟩
  rw [hs.run, hs.truncate.run, run_of_rest (withRest_rest mid []), List.append_nil]

theorem nests (h : lx.Yields ns trailing last) (hr : last.rest = []) :
    lx.nests = (ns, trailing) ∧ lx.unclosed? = last.frames.head? := by
  obtain ⟨ps, xs, hs, hx, he, hc⟩ := h
  have hrun := hs.run
  rw [run_of_rest hr, List.append_nil] at hrun
  rw [nests_eq, lexemes, unclosed?, hrun, hx, he, Nest.gather_flattenAll hc]
  exact ⟨rfl, rfl⟩

end Yields

end Lexer

end MakeTree
